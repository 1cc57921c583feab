import ApiAssembly.Proofs.Schema.Equation
import ApiAssembly.Proofs.TypeExpr.Chain

/-!
# Shapes of converted expressions

At every depth the schema of an expression has just one of eight shapes, each with keywords of its
own and no others.  For the schema of a text, the arms of alternatives come from the pieces
of a whole chain in the text, from the first bar to the last one, and none of the pieces has
alternatives outside brackets; and so it is with the arms of intersections.
-/

namespace ApiAssembly

namespace Schema

/-- The shapes of the schemas of expressions. -/
inductive Shape where
  | type
  | reference
  | strings
  | numbers
  | alternatives
  | intersection
  | array
  | record

/-- Schemas of a shape have the keywords of the shape and no others. -/
inductive HasShape : Schema → Shape → Prop where
  /-- The name of a type alone, or the mark of an arbitrary value. -/
  | type {name : String}
      (known : name ∈ ["null", "boolean", "object", "array", "number", "string", "integer"] ∨
        name = "\x7b\x7d") :
      HasShape { typeName := some name } .type
  | reference (name : String) :
      HasShape { reference := some ("#/components/schemas/" ++ name) } .reference
  | strings {literals : List String} (nonempty : literals ≠ []) :
      HasShape { typeName := some "string", enumeration := literals.map .string } .strings
  | numbers {name : String} {values : List Value} (numeric : name = "integer" ∨ name = "number")
      (nonempty : values ≠ []) :
      HasShape { typeName := some name, enumeration := values } .numbers
  | alternatives {arms : List Schema} (several : 2 ≤ arms.length) :
      HasShape { oneOf := arms } .alternatives
  | intersection {arms : List Schema} (several : 2 ≤ arms.length) :
      HasShape { typeName := some "object", allOf := arms } .intersection
  | array (element : Schema) :
      HasShape { typeName := some "array", items := .each element } .array
  | record (properties : Entries Schema) :
      HasShape { typeName := some "object", properties := some properties } .record

/-- The shape that a schema has if it has one. -/
def shapeOf (schema : Schema) : Shape :=
  if schema.reference.isSome then .reference
  else if !schema.oneOf.isEmpty then .alternatives
  else if !schema.allOf.isEmpty then .intersection
  else if !schema.items.schemas.isEmpty then .array
  else if schema.properties.isSome then .record
  else if schema.enumeration.isEmpty then .type
  else if schema.typeName = some "string" then .strings
  else .numbers

variable {schema : Schema} {shape : Shape}

theorem HasShape.shapeOf_eq (has : schema.HasShape shape) : schema.shapeOf = shape := by
  cases has with
  | type | reference | array | record => rfl
  | strings nonempty => simp [shapeOf, Items.schemas, nonempty]
  | numbers numeric nonempty =>
      rcases numeric with rfl | rfl <;> simp [shapeOf, Items.schemas, nonempty]
  | alternatives several =>
      have nonempty := List.ne_nil_of_length_pos (Nat.lt_of_lt_of_le Nat.two_pos several)
      simp [shapeOf, nonempty]
  | intersection several =>
      have nonempty := List.ne_nil_of_length_pos (Nat.lt_of_lt_of_le Nat.two_pos several)
      simp [shapeOf, nonempty]

/-- No schema has two shapes. -/
theorem existsUnique_shape (shaped : ∃ shape, schema.HasShape shape) :
    ∃! shape, schema.HasShape shape := by
  obtain ⟨shape, has⟩ := shaped
  exact ⟨shape, has, fun other hasOther => hasOther.shapeOf_eq.symm.trans has.shapeOf_eq⟩

/-- A schema has a shape, and so have the schemas within it. -/
def Shaped (schema : Schema) : Prop :=
  schema.Throughout fun node => ∃ shape, node.HasShape shape

theorem HasShape.shaped (has : schema.HasShape shape)
    (each : ∀ part ∈ schema.inner, part.Shaped) : schema.Shaped :=
  throughout_iff.mpr ⟨⟨shape, has⟩, each⟩

theorem shaped_ofName (name : String) : (ofName name).Shaped := by
  simp only [ofName]
  split
  · exact (HasShape.type (.inl (by decide))).shaped (List.forall_mem_nil _)
  · split
    next basic =>
      exact (HasShape.type (.inl (List.contains_iff_mem.mp basic))).shaped (List.forall_mem_nil _)
    · exact (HasShape.reference name).shaped (List.forall_mem_nil _)

theorem forall_mem_shaped {expressions : List TypeExpr} {schemas : List Schema}
    (each : List.Forall₂ (fun _ schema => schema.Shaped) expressions schemas) :
    ∀ schema ∈ schemas, schema.Shaped := by
  intro schema member
  obtain ⟨-, -, shaped⟩ := exists_of_mem_of_forall₂ each member
  exact shaped

theorem closed_shaped : ClosedUnderConversion fun _ schema => schema.Shaped where
  name name := shaped_ofName name
  strings chain := by
    refine (HasShape.strings ?_).shaped (List.forall_mem_nil _)
    rintro rfl
    exact TypeExpr.alternatives_ne_nil _ chain
  numbers {expression literals} chain := by
    refine (HasShape.numbers ?_ ?_).shaped (List.forall_mem_nil _)
    · cases literals.all Decimal.Binary64.isIntegral
      · exact .inr rfl
      · exact .inl rfl
    · intro none
      rw [List.map_eq_nil_iff.mp none] at chain
      exact expression.alternatives_ne_nil chain
  alternatives each := by
    refine (HasShape.alternatives ?_).shaped ?_
    · rw [← each.length_eq]
      exact TypeExpr.two_le_length_alternatives _ _
    · rw [inner_oneOf]
      exact forall_mem_shaped each
  conjuncts each := by
    refine (HasShape.intersection ?_).shaped ?_
    · rw [← each.length_eq]
      exact TypeExpr.two_le_length_conjuncts _ _
    · rw [inner_allOf]
      exact forall_mem_shaped each
  parenthesis inside := inside
  any := (HasShape.type (.inr rfl)).shaped (List.forall_mem_nil _)
  record each := by
    refine (HasShape.record _).shaped fun part member => ?_
    rw [inner_properties] at member
    exact forall_mem_shaped each part (mem_of_mem_values_putAll_zip member)
  array _ inside := by
    refine (HasShape.array _).shaped ?_
    exact List.forall_mem_singleton.mpr inside

/-- The last step of a conversion. -/
inductive LastStep : TypeExpr → Schema → Prop where
  | name (name : String) : LastStep (.name name) (ofName name)
  | strings (expression : TypeExpr) (literals : List String) :
      LastStep expression (ofStrings literals)
  | numbers (expression : TypeExpr) (literals : List Decimal.Binary64) :
      LastStep expression (ofNumbers literals)
  | alternatives {left right : TypeExpr} {arms : List Schema}
      (each : Convert (TypeExpr.union left right).alternatives arms) :
      LastStep (.union left right) { oneOf := arms }
  | conjuncts {left right : TypeExpr} {arms : List Schema}
      (each : Convert (TypeExpr.intersection left right).conjuncts arms) :
      LastStep (.intersection left right) { typeName := some "object", allOf := arms }
  | any : LastStep .any (ofType "\x7b\x7d")
  | record {entries : List (String × TypeExpr)} {schemas : List Schema}
      (each : Convert (entries.map Prod.snd) schemas) :
      LastStep (.record entries)
        { typeName := some "object",
          properties := some (Entries.putAll ((entries.map Prod.fst).zip schemas) []) }
  | array {subject : String} {element : TypeExpr} {others : List TypeExpr} {schema : Schema}
      (converts : ofTypeExpr element = .ok schema) :
      LastStep (.generic subject (element :: others)) (arrayOf schema)

theorem lastStep_of_ofTypeExpr {expression : TypeExpr} {schema : Schema}
    (converts : ofTypeExpr expression = .ok schema) : LastStep expression.bare schema := by
  cases expression with
  | name name =>
      rw [ofTypeExpr] at converts
      cases converts
      exact .name name
  | number value =>
      rw [ofTypeExpr] at converts
      cases converts
      exact .numbers _ [value]
  | string value =>
      rw [ofTypeExpr] at converts
      cases converts
      exact .strings _ [value]
  | union left right =>
      rcases exists_of_ofTypeExpr_union converts with
        ⟨literals, rfl⟩ | ⟨literals, rfl⟩ | ⟨arms, each, rfl⟩
      · exact .strings _ literals
      · exact .numbers _ literals
      · exact .alternatives each
  | intersection left right =>
      rw [ofTypeExpr_intersection] at converts
      obtain ⟨arms, each, rfl⟩ := exists_of_map_eq_ok converts
      exact .conjuncts (mapM_eq_ok_iff.mp each)
  | parenthesis inner =>
      -- a parenthesis leaves no trace in the schema: the last step is that of what it encloses
      rw [ofTypeExpr] at converts
      have inside := lastStep_of_ofTypeExpr converts
      rw [TypeExpr.bare]
      exact inside
  | any =>
      rw [ofTypeExpr] at converts
      cases converts
      exact .any
  | record entries =>
      rw [ofTypeExpr_record] at converts
      obtain ⟨schemas, each, rfl⟩ := exists_of_map_eq_ok converts
      exact .record (mapM_eq_ok_iff.mp each)
  | generic subject objects =>
      unfold ofTypeExpr at converts
      split at converts
      · cases objects with
        | nil => cases converts
        | cons element others =>
            obtain ⟨schema, elementConverts, rfl⟩ := exists_of_map_eq_ok converts
            exact .array elementConverts
      · cases converts
  | unknown | nullable inner | notNullable inner | optional inner | variadic inner =>
      simp only [ofTypeExpr, reduceCtorEq] at converts

variable {expression : TypeExpr} {node : Schema}

theorem inner_ofName (name : String) : (ofName name).inner = [] := by
  rcases ofName_cases name with ⟨typeName, same⟩ | same <;> rw [same] <;> rfl

/-- The schemas directly within a schema are those of terms. -/
theorem LastStep.exists_of_mem_inner (last : LastStep expression schema)
    (member : node ∈ schema.inner) :
    ∃ operand ∈ expression.terms, ofTypeExpr operand = .ok node := by
  cases last with
  | name name =>
      rw [inner_ofName] at member
      cases member
  | strings | numbers | any => cases member
  | alternatives each =>
      rw [inner_oneOf] at member
      exact exists_of_mem_of_forall₂ each member
  | conjuncts each =>
      rw [inner_allOf] at member
      exact exists_of_mem_of_forall₂ each member
  | record each =>
      rw [inner_properties] at member
      exact exists_of_mem_of_forall₂ each (mem_of_mem_values_putAll_zip member)
  | array converts =>
      rw [inner_arrayOf] at member
      obtain rfl := List.mem_singleton.mp member
      exact ⟨_, List.mem_cons_self, converts⟩

/-- Every schema within the schema of an expression is that of one of its terms. -/
theorem exists_reached_of_within (converts : ofTypeExpr expression = .ok schema)
    (within : node.Within schema) :
    ∃ part : TypeExpr, part.Reached TypeExpr.terms expression ∧ LastStep part node := by
  induction within generalizing expression with
  | self => exact ⟨_, expression.reached_bare, lastStep_of_ofTypeExpr converts⟩
  | inner member _ ih =>
      obtain ⟨operand, among, operandConverts⟩ :=
        (lastStep_of_ofTypeExpr converts).exists_of_mem_inner member
      obtain ⟨part, reached, last⟩ := ih operandConverts
      exact ⟨part, (reached.trans (.inner among .self)).trans expression.reached_bare, last⟩

section Flattening

open TypeExpr (Token UnionSyntax IntersectionSyntax Spelled Written Derivable terms bareOperands)

/-- The arms of a schema come from the pieces between the separators of a chain in a text.  The
chain is a term of the text's expression and so no part of a longer chain.  The tokens of the
pieces stand in the text side by side with a separator between each two, and in no piece there is
a further chain of the kind, or of a looser one, outside brackets. -/
structure Flattens (source : UnionSyntax) (separator : Token) (lowest : Nat) (chain : TypeExpr)
    (pieces : List (List Token × TypeExpr)) (arms : List Schema) : Prop where
  whole : chain.Reached terms source.tree
  links : pieces.map Prod.snd = chain.terms
  several : 2 ≤ pieces.length
  tokens : [separator].intercalate (pieces.map Prod.fst) <:+: source.tokens
  derivable : ∀ piece ∈ pieces, Derivable piece.1 piece.2 lowest
  closed : ∀ piece ∈ pieces, ∀ part : TypeExpr, part.Reached bareOperands piece.2 →
    lowest ≤ part.level
  converts : Convert (pieces.map Prod.snd) arms

variable {source : UnionSyntax} {left right chain : TypeExpr} {arms : List Schema}

theorem exists_flattens_of_pieces {σ : Type} {pieces : List σ} {tokens : σ → List Token}
    {tree : σ → TypeExpr} {separator : Token} {lowest : Nat}
    (reached : chain.Reached terms source.tree) (links : pieces.map tree = chain.terms)
    (several : 2 ≤ chain.terms.length)
    (inside : [separator].intercalate (pieces.map tokens) <:+: source.tokens)
    (derivable : ∀ piece, Derivable (tokens piece) (tree piece) lowest)
    (canonical : ∀ piece ∈ pieces, (tree piece).Canonical ∧ lowest ≤ (tree piece).level)
    (each : Convert chain.terms arms) :
    ∃ pieces, Flattens source separator lowest chain pieces arms := by
  have trees : (pieces.map fun piece => (tokens piece, tree piece)).map Prod.snd = chain.terms := by
    rw [List.map_map, ← links]
    rfl
  refine ⟨pieces.map fun piece => (tokens piece, tree piece), reached, trees, ?_, ?_,
    List.forall_mem_map.mpr fun piece _ => derivable piece,
    List.forall_mem_map.mpr fun piece member part exposed => ?_, trees ▸ each⟩
  · rwa [← List.length_map (f := Prod.snd), trees]
  · rwa [List.map_map]
  · -- outside brackets nothing is looser than the piece, and the piece is not looser than `lowest`
    obtain ⟨pieceCanonical, above⟩ := canonical piece member
    exact above.trans (pieceCanonical.level_le_of_reached exposed)

theorem exists_flattens_union (spelled : Spelled source.tokens)
    (reached : (TypeExpr.union left right).Reached terms source.tree)
    (each : Convert (TypeExpr.union left right).alternatives arms) :
    ∃ pieces, Flattens source .pipe 1 (.union left right) pieces arms := by
  obtain ⟨found, inside, stands⟩ := source.derivedIn_of_reached reached
  refine exists_flattens_of_pieces reached (found.alternatives_tree.symm.trans ?_)
    (TypeExpr.two_le_length_alternatives left right) (found.tokens_eq_intercalate ▸ inside)
    (fun piece => ⟨piece, rfl, rfl⟩) (fun piece member => piece.canonical_tree ?_) each
  · rw [stands]
    rfl
  · exact fun token among =>
      spelled token (((found.infix_of_mem_pieces member).trans inside).subset among)

theorem exists_flattens_intersection (spelled : Spelled source.tokens)
    (reached : (TypeExpr.intersection left right).Reached terms source.tree)
    (each : Convert (TypeExpr.intersection left right).conjuncts arms) :
    ∃ pieces, Flattens source .ampersand 2 (.intersection left right) pieces arms := by
  obtain ⟨found, inside, stands⟩ := source.derivedIn_of_reached reached
  cases found with
  | alternatives first rest => cases stands
  | single found =>
      refine exists_flattens_of_pieces reached (found.conjuncts_tree.symm.trans ?_)
        (TypeExpr.two_le_length_conjuncts left right) (found.tokens_eq_intercalate ▸ inside)
        (fun piece => ⟨piece, rfl, rfl⟩) (fun piece member => piece.canonical_tree ?_) each
      · rw [show found.tree = _ from stands]
        rfl
      · exact fun token among =>
          spelled token (((found.infix_of_mem_pieces member).trans inside).subset among)

theorem LastStep.exists_union {expression : TypeExpr} (last : LastStep expression schema)
    (some : schema.oneOf ≠ []) : ∃ left right, expression = .union left right ∧
      Convert (TypeExpr.union left right).alternatives schema.oneOf := by
  cases last with
  | alternatives each => exact ⟨_, _, rfl, each⟩
  | name name =>
      refine absurd ?_ some
      rcases ofName_cases name with ⟨typeName, same⟩ | same <;> rw [same] <;> rfl
  | _ => exact absurd rfl some

theorem LastStep.exists_intersection {expression : TypeExpr} (last : LastStep expression schema)
    (some : schema.allOf ≠ []) : ∃ left right, expression = .intersection left right ∧
      Convert (TypeExpr.intersection left right).conjuncts schema.allOf := by
  cases last with
  | conjuncts each => exact ⟨_, _, rfl, each⟩
  | name name =>
      refine absurd ?_ some
      rcases ofName_cases name with ⟨typeName, same⟩ | same <;> rw [same] <;> rfl
  | _ => exact absurd rfl some

/-- Every schema within the schema of an expression has just one shape.  And if the expression is
read from a text, the arms of alternatives are those of a whole chain in the text, none of
which has alternatives outside brackets, and likewise the arms of intersections. -/
theorem existsUnique_shape_and_exists_flattens :
    (∀ expression schema, ofTypeExpr expression = .ok schema →
      ∀ node : Schema, node.Within schema → ∃! shape, node.HasShape shape) ∧
    ∀ text schema, ofText text = .ok schema →
      ∃ source : UnionSyntax, Written source.tokens text.toList ∧
        TypeExpr.parse text = .ok source.tree ∧
        ∀ node : Schema, node.Within schema →
          (node.oneOf ≠ [] → ∃ left right pieces,
            Flattens source .pipe 1 (.union left right) pieces node.oneOf) ∧
          (node.allOf ≠ [] → ∃ left right pieces,
            Flattens source .ampersand 2 (.intersection left right) pieces node.allOf) := by
  refine ⟨fun expression schema converts node within => ?_, fun text schema converts => ?_⟩
  · exact existsUnique_shape (closed_shaped.of_ofTypeExpr converts node within)
  · rw [ofText] at converts
    split at converts
    · cases converts
    next tree parsed =>
      obtain ⟨source, written, rfl⟩ := TypeExpr.exists_written_of_parse parsed
      have spelled := TypeExpr.spelled_of_written written
      refine ⟨source, written, parsed, fun node within => ?_⟩
      obtain ⟨part, reached, last⟩ := exists_reached_of_within converts within
      constructor
      · intro some
        obtain ⟨left, right, rfl, each⟩ := last.exists_union some
        exact ⟨left, right, exists_flattens_union spelled reached each⟩
      · intro some
        obtain ⟨left, right, rfl, each⟩ := last.exists_intersection some
        exact ⟨left, right, exists_flattens_intersection spelled reached each⟩

/-- A chain of three alternatives, one of which has parentheses around alternatives of its own. -/
theorem exists_flattens_nestedAlternatives :
    ∃ schema, ofText "Pet|(Cat|Dog)|Owl&Fox" = .ok schema ∧ schema.oneOf.length = 3 ∧
      (∃! shape, schema.HasShape shape) ∧
      ∃ source : UnionSyntax, Written source.tokens "Pet|(Cat|Dog)|Owl&Fox".toList ∧
        ∃ left right pieces,
          Flattens source .pipe 1 (.union left right) pieces schema.oneOf := by
  have cut : TypeExpr.tokens "Pet|(Cat|Dog)|Owl&Fox".toList =
      .ok [(0, .word "Pet"), (3, .pipe), (4, .leftParenthesis), (5, .word "Cat"), (8, .pipe),
        (9, .word "Dog"), (12, .rightParenthesis), (13, .pipe), (14, .word "Owl"),
        (17, .ampersand), (18, .word "Fox")] := by decide +kernel
  have read : TypeExpr.readTokens [.word "Pet", .pipe, .leftParenthesis, .word "Cat", .pipe,
      .word "Dog", .rightParenthesis, .pipe, .word "Owl", .ampersand, .word "Fox"] =
        .ok (.union (.name "Pet") (.union (.parenthesis (.union (.name "Cat") (.name "Dog")))
          (.intersection (.name "Owl") (.name "Fox")))) :=
    TypeExpr.readTokens_eq_ok_iff_exists.mpr
      ⟨.alternatives (.single (.suffixed (.atom (.word "Pet")) []))
        (.alternatives
          (.single (.suffixed (.parenthesis
            (.alternatives (.single (.suffixed (.atom (.word "Cat")) []))
              (.single (.single (.suffixed (.atom (.word "Dog")) []))))) []))
          (.single (.both (.suffixed (.atom (.word "Owl")) [])
            (.single (.suffixed (.atom (.word "Fox")) []))))), rfl, rfl⟩
  have converts : ofText "Pet|(Cat|Dog)|Owl&Fox" =
      .ok { oneOf := [ofName "Pet", { oneOf := [ofName "Cat", ofName "Dog"] },
              { typeName := some "object", allOf := [ofName "Owl", ofName "Fox"] }] } := by
    rw [ofText_of_parse (TypeExpr.parse_of_tokens cut read)]
    simp only [ofTypeExpr, ofAlternatives, ofParts, stringLiterals?, numberLiterals?]
    rfl
  obtain ⟨shapes, flattens⟩ := existsUnique_shape_and_exists_flattens
  obtain ⟨source, written, parsed, each⟩ := flattens _ _ converts
  refine ⟨_, converts, rfl, ?_, source, written, (each _ .self).1 (List.cons_ne_nil _ _)⟩
  exact shapes _ _ (by rwa [ofText_of_parse parsed] at converts) _ .self

end Flattening

end Schema

end ApiAssembly
