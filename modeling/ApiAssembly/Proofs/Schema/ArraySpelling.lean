import ApiAssembly.Proofs.Schema.Joining

/-!
# Spellings of array types

An array type is written with brackets behind its element type, or with its name in front of
the element type between angle brackets, which may follow a dot.  All three are read as the same
expression, and so have the same schema, whatever the element type is: an array type written
in one of these ways, with or without parentheses, is an element type again.  Only the
brackets ask for an element type that holds together, since they apply to what is directly in
front of them.
-/

namespace ApiAssembly

namespace TypeExpr

/-- The spellings of an array type. -/
inductive ArrayForm where
  | brackets
  | angles
  | dottedAngles

def ArrayForm.write : ArrayForm → String → String
  | .brackets, element => element ++ "[]"
  | .angles, element => "Array<" ++ element ++ ">"
  | .dottedAngles, element => "Array.<" ++ element ++ ">"

/-- A text within a number of parentheses. -/
def enclose : Nat → String → String
  | 0, text => text
  | count + 1, text => "(" ++ enclose count text ++ ")"

/-- An expression within a number of parentheses. -/
def parenthesized : Nat → TypeExpr → TypeExpr
  | 0, tree => tree
  | count + 1, tree => .parenthesis (parenthesized count tree)

/-- An array type around an element type that stands in a number of parentheses. -/
structure ArrayLayer where
  form : ArrayForm
  parentheses : Nat

def ArrayLayer.write (text : String) (layer : ArrayLayer) : String :=
  layer.form.write (enclose layer.parentheses text)

/-- The array type around an expression within a number of parentheses. -/
def arrayAround (tree : TypeExpr) (parentheses : Nat) : TypeExpr :=
  .generic "Array" [parenthesized parentheses tree]

section Derivations

variable {tree : TypeExpr} {tokens : List Token}

theorem derivable_brackets (derivable : Derivable tokens tree 3) :
    Derivable (tokens ++ [.leftBracket, .rightBracket]) tree.arrayOf 3 := by
  obtain ⟨primary, marks, rfl, rfl⟩ := derivable
  refine ⟨primary, marks ++ [.brackets], ?_, ?_⟩
  · simp [OperandSyntax.tokens, Suffix.tokens]
  · rw [OperandSyntax.tree, List.foldl_append]
    rfl

theorem derivable_angles (dotted : Bool) (derivable : Derivable tokens tree 0) :
    Derivable (.word "Array" :: (if dotted then [.dot] else []) ++ .less :: tokens ++ [.greater])
      tree.arrayOf 3 := by
  obtain ⟨found, rfl, rfl⟩ := derivable
  refine ⟨.generic "Array" dotted (.last found), [], ?_, rfl⟩
  rw [OperandSyntax.tokens, List.flatMap_nil, List.append_nil]
  rfl

theorem derivable_parenthesis (derivable : Derivable tokens tree 0) :
    Derivable (.leftParenthesis :: tokens ++ [.rightParenthesis]) (.parenthesis tree) 3 := by
  obtain ⟨found, rfl, rfl⟩ := derivable
  refine ⟨.parenthesis found, [], ?_, rfl⟩
  rw [OperandSyntax.tokens, List.flatMap_nil, List.append_nil]
  rfl

end Derivations

section Texts

variable {text : String} {tree : TypeExpr}

/-- A text spells an expression that holds together. -/
def SpeltWhole (text : String) (tree : TypeExpr) : Prop :=
  ∃ tokens, Written tokens text.toList ∧ Derivable tokens tree 3

theorem parse_of_speltWhole (spelt : SpeltWhole text tree) : parse text = .ok tree := by
  obtain ⟨tokens, written, derivable⟩ := spelt
  obtain ⟨found, rfl, rfl⟩ := derivable.mono (Nat.zero_le 3)
  exact parse_of_written written

theorem speltWhole_of_parse (parsed : parse text = .ok tree) (whole : 3 ≤ tree.level) :
    SpeltWhole text tree := by
  have noUnion (left right : TypeExpr) : tree ≠ .union left right := by
    rintro rfl
    exact absurd whole (Nat.not_succ_le_zero 2)
  have noIntersection (left right : TypeExpr) : tree ≠ .intersection left right := by
    rintro rfl
    exact absurd whole (by decide : ¬3 ≤ 1)
  obtain ⟨found, written, rfl⟩ := exists_operandSyntax_of_parse parsed noUnion noIntersection
  cases found with
  | marked mark inner => cases mark <;> exact absurd whole (Nat.not_succ_le_self 2)
  | suffixed primary marks => exact ⟨_, written, primary, marks, rfl, rfl⟩

theorem SpeltWhole.parenthesized (spelt : SpeltWhole text tree) (count : Nat) :
    SpeltWhole (enclose count text) (parenthesized count tree) := by
  induction count with
  | zero => exact spelt
  | succ count ih =>
      obtain ⟨tokens, written, derivable⟩ := ih
      refine ⟨_, ?_, derivable_parenthesis (derivable.mono (Nat.zero_le 3))⟩
      have opened : Written (.leftParenthesis :: tokens) ('(' :: (enclose count text).toList) :=
        .token (.punctuation rfl) written
      have closing : Written [.rightParenthesis] [')'] := .token (.punctuation rfl) .nil
      rw [enclose, String.toList_append, String.toList_append]
      exact opened.append closing

theorem SpeltWhole.array (spelt : SpeltWhole text tree) (form : ArrayForm) :
    SpeltWhole (form.write text) tree.arrayOf := by
  obtain ⟨tokens, written, derivable⟩ := spelt
  have inner := derivable.mono (Nat.zero_le 3)
  have subject : Spells (.word "Array") "Array".toList := .word (by decide)
  have opened : Written (.less :: tokens) ('<' :: text.toList) := .token (.punctuation rfl) written
  have closing : Written [.greater] ['>'] := .token (.punctuation rfl) .nil
  have brackets : Written [.leftBracket, .rightBracket] ['[', ']'] :=
    .token (.punctuation rfl) (.token (.punctuation rfl) .nil)
  cases form with
  | brackets =>
      refine ⟨_, ?_, derivable_brackets derivable⟩
      rw [ArrayForm.write, String.toList_append]
      exact written.append brackets
  | angles =>
      refine ⟨_, ?_, derivable_angles false inner⟩
      have front := Written.token subject opened
      rw [ArrayForm.write, String.toList_append, String.toList_append]
      exact front.append closing
  | dottedAngles =>
      refine ⟨_, ?_, derivable_angles true inner⟩
      have front := Written.token subject (Written.token .dot opened)
      rw [ArrayForm.write, String.toList_append, String.toList_append]
      exact front.append closing

/-- Array types around an expression, one after the other. -/
theorem SpeltWhole.layers (spelt : SpeltWhole text tree) (layers : List ArrayLayer) :
    SpeltWhole (layers.foldl ArrayLayer.write text)
      ((layers.map ArrayLayer.parentheses).foldl arrayAround tree) := by
  induction layers generalizing text tree with
  | nil => exact spelt
  | cons layer layers ih => exact ih ((spelt.parenthesized layer.parentheses).array layer.form)

end Texts

end TypeExpr

namespace Schema

open TypeExpr (parenthesized arrayAround ArrayLayer)

variable {text : String} {tree : TypeExpr}

theorem ofTypeExpr_parenthesized (count : Nat) (tree : TypeExpr) :
    ofTypeExpr (parenthesized count tree) = ofTypeExpr tree := by
  induction count with
  | zero => rfl
  | succ count ih => rw [parenthesized, ofTypeExpr, ih]

theorem ofTypeExpr_arrayAround (tree : TypeExpr) (parentheses : Nat) :
    ofTypeExpr (arrayAround tree parentheses) = (ofTypeExpr tree).map arrayOf := by
  have isArray : isArrayName "Array" = true := by decide
  rw [← ofTypeExpr_parenthesized parentheses tree]
  simp only [arrayAround, ofTypeExpr, isArray, if_true]

theorem ofTypeExpr_foldl_arrayAround (parentheses : List Nat) (tree : TypeExpr) :
    ofTypeExpr (parentheses.foldl arrayAround tree) =
      (Except.map arrayOf)^[parentheses.length] (ofTypeExpr tree) := by
  induction parentheses generalizing tree with
  | nil => rfl
  | cons count parentheses ih =>
      rw [List.foldl_cons, ih, ofTypeExpr_arrayAround, List.length_cons,
        Function.iterate_succ_apply]

/-- A text whose expression holds together, with array types around it in whatever spellings, is
read as the expression with the same array types around it, and has the schema of as many
arrays of its schema, or its error. -/
theorem ofText_arrayLayers (parsed : TypeExpr.parse text = .ok tree) (whole : 3 ≤ tree.level)
    (layers : List ArrayLayer) :
    TypeExpr.parse (layers.foldl ArrayLayer.write text) =
        .ok ((layers.map ArrayLayer.parentheses).foldl arrayAround tree) ∧
      ofText (layers.foldl ArrayLayer.write text) =
        (Except.map arrayOf)^[layers.length] (ofText text) := by
  have spelt := (TypeExpr.speltWhole_of_parse parsed whole).layers layers
  have read := TypeExpr.parse_of_speltWhole spelt
  refine ⟨read, ?_⟩
  rw [ofText_of_parse read, ofText_of_parse parsed, ofTypeExpr_foldl_arrayAround, List.length_map]

/-- An array in brackets within an array between angle brackets. -/
theorem ofText_arrayLayers_name :
    (TypeExpr.parse "Pet" = .ok (.name "Pet") ∧ 3 ≤ (TypeExpr.name "Pet").level) ∧
      TypeExpr.parse "Array.<(Pet)[]>" =
        .ok (.generic "Array" [.generic "Array" [.parenthesis (.name "Pet")]]) ∧
      ofText "Array.<(Pet)[]>" = .ok (arrayOf (arrayOf (ofName "Pet"))) := by
  have parsed : TypeExpr.parse "Pet" = .ok (.name "Pet") :=
    TypeExpr.parse_of_isWord (by decide : TypeExpr.isWord "Pet".toList = true)
  have whole : 3 ≤ (TypeExpr.name "Pet").level := Nat.le_refl 3
  have layers : [⟨.brackets, 1⟩, ⟨.dottedAngles, 0⟩].foldl ArrayLayer.write "Pet" =
      "Array.<(Pet)[]>" := by decide
  obtain ⟨read, schema⟩ :=
    ofText_arrayLayers parsed whole [⟨.brackets, 1⟩, ⟨.dottedAngles, 0⟩]
  rw [layers] at read schema
  rw [ofText_of_parse parsed, ofTypeExpr] at schema
  exact ⟨⟨parsed, whole⟩, read, schema⟩

end Schema

end ApiAssembly
