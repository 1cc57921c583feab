import ApiAssembly.Proofs.Schema.Enumeration

/-!
# Parts of type expressions

Which parts of an expression count depends on the question: all of them, those that are
converted, or those that no brackets enclose.  So the expressions to which one goes on from an
expression are a parameter, and the parts are those that are reached in this way.  Reaching
further from every part reaches more, and what is reached in a chain is reached from one of
its links, unless it is a part of the chain itself.
-/

namespace ApiAssembly.TypeExpr

/-- A part that is reached from an expression through the expressions below each one, or that
is the expression itself. -/
inductive Reached (below : TypeExpr → List TypeExpr) (part : TypeExpr) : TypeExpr → Prop where
  | self : Reached below part part
  | inner {operand whole : TypeExpr} (member : operand ∈ below whole)
      (reached : Reached below part operand) : Reached below part whole

variable {below above : TypeExpr → List TypeExpr} {part middle whole : TypeExpr}

theorem reached_iff : part.Reached below whole ↔
    part = whole ∨ ∃ operand ∈ below whole, part.Reached below operand := by
  constructor
  · rintro (_ | ⟨member, reached⟩)
    · exact .inl rfl
    · exact .inr ⟨_, member, reached⟩
  · rintro (rfl | ⟨operand, member, reached⟩)
    · exact .self
    · exact .inner member reached

theorem reached_operands_iff : part.Reached operands whole ↔ part.Within whole := by
  constructor
  · intro reached
    induction reached with
    | self => exact .self
    | inner member _ ih => exact .inner member ih
  · intro within
    induction within with
    | self => exact .self
    | inner member _ ih => exact .inner member ih

theorem Reached.trans (inner : part.Reached below middle) (outer : middle.Reached below whole) :
    part.Reached below whole := by
  induction outer with
  | self => exact inner
  | inner member _ ih => exact .inner member ih

/-- What is reached through fewer expressions is reached through more.  The comparison is needed
only where both ways have led. -/
theorem Reached.of_subset (reached : part.Reached below whole)
    (wider : ∀ middle, middle.Reached below whole → middle.Reached above whole →
      below middle ⊆ above middle) : part.Reached above whole := by
  induction reached with
  | self => exact .self
  | @inner operand whole member _ ih =>
      have here : operand ∈ above whole := wider whole .self .self member
      -- what is below the operand in both ways is below the whole in both ways
      refine .inner here (ih fun middle inside outside => ?_)
      exact wider middle (.inner member inside) (.inner here outside)

/-- A property that goes on to the expressions below holds of everything that is reached. -/
theorem Reached.carry (reached : part.Reached below whole) (holds : TypeExpr → Prop)
    (here : holds whole)
    (step : ∀ middle, holds middle → ∀ operand ∈ below middle, holds operand) : holds part := by
  induction reached with
  | self => exact here
  | inner member _ ih => exact ih (step _ here _ member)

theorem Reached.cases_alternatives
    (both : ∀ left right, below (.union left right) = [left, right])
    (reached : part.Reached below whole) :
    (∃ left right, part = .union left right) ∨
      ∃ alternative ∈ whole.alternatives, part.Reached below alternative := by
  fun_induction alternatives whole with
  | case1 left right ih =>
      rcases reached_iff.mp reached with rfl | ⟨operand, member, inside⟩
      · exact .inl ⟨left, right, rfl⟩
      · rw [both, List.mem_pair] at member
        rcases member with rfl | rfl
        · exact .inr ⟨operand, List.mem_cons_self, inside⟩
        · rcases ih inside with chain | ⟨alternative, among, later⟩
          · exact .inl chain
          · exact .inr ⟨alternative, List.mem_cons_of_mem _ among, later⟩
  | case2 other => exact .inr ⟨other, List.mem_singleton_self other, reached⟩

theorem Reached.cases_conjuncts
    (both : ∀ left right, below (.intersection left right) = [left, right])
    (reached : part.Reached below whole) :
    (∃ left right, part = .intersection left right) ∨
      ∃ conjunct ∈ whole.conjuncts, part.Reached below conjunct := by
  fun_induction conjuncts whole with
  | case1 left right ih =>
      rcases reached_iff.mp reached with rfl | ⟨operand, member, inside⟩
      · exact .inl ⟨left, right, rfl⟩
      · rw [both, List.mem_pair] at member
        rcases member with rfl | rfl
        · exact .inr ⟨operand, List.mem_cons_self, inside⟩
        · rcases ih inside with chain | ⟨conjunct, among, later⟩
          · exact .inl chain
          · exact .inr ⟨conjunct, List.mem_cons_of_mem _ among, later⟩
  | case2 other => exact .inr ⟨other, List.mem_singleton_self other, reached⟩

end ApiAssembly.TypeExpr
