import ApiAssembly.Proofs.Typedef.Change
import ApiAssembly.Proofs.Typedef.Running

/-!
# Insertions

A declaration that succeeds inserts a part at the end of a path, in the place of what stood there.
Whatever a tag does is one of four things: it inserts a part, sets a keyword, is reported, or
says nothing.  The insertions of a run, in order, tell which declaration put a part where it is.
-/

namespace ApiAssembly

open Comment (Tag Block)

namespace Typedef

namespace Attaches

variable {tag : Tag} {property parent : Schema} {step other : Step} {attach : Schema → Schema}

/-- The step of an attachment leads to the attached part. -/
theorem part?_self (attaches : Attaches tag property parent step attach) :
    (attach parent).part? step = some property := by
  cases attaches with
  | item array placed => simp [Schema.part?, Schema.item?, attachItem]
  | property noArray => simp [Schema.part?, Schema.property?, attachProperty]

/-- Attaching a part keeps the other ones. -/
theorem part?_of_ne (attaches : Attaches tag property parent step attach)
    (different : other ≠ step) : (attach parent).part? other = parent.part? other := by
  cases attaches with
  | @item array schemas placed =>
      cases other with
      | property name => rfl
      | item index =>
          have elsewhere : index ≠ schemas.length := fun same => different (same ▸ rfl)
          have further : (schemas ++ [property])[index]? = schemas[index]? := by
            rcases Nat.lt_or_gt_of_ne elsewhere with inside | outside
            · exact List.getElem?_append_left inside
            · rw [List.getElem?_eq_none (Nat.le_of_lt outside),
                List.getElem?_eq_none (by simpa using Nat.succ_le_of_lt outside)]
          cases found : parent.items with
          | absent =>
              rw [found] at placed
              cases placed
              simpa [Schema.part?, Schema.item?, attachItem, found] using further
          | each element =>
              rw [found] at placed
              cases placed
          | tuple others =>
              rw [found] at placed
              cases placed
              simpa [Schema.part?, Schema.item?, attachItem, found] using further
  | property noArray =>
      cases other with
      | item index => rfl
      | property name =>
          have elsewhere : (splitName tag.name).2 ≠ name := fun same => different (same ▸ rfl)
          cases found : parent.properties <;>
            simp [Schema.part?, Schema.property?, attachProperty, found, Entries.get?_put,
              elsewhere]

theorem nullable_eq (attaches : Attaches tag property parent step attach) :
    (attach parent).nullable = parent.nullable := by
  cases attaches <;> rfl

theorem isArray_eq (attaches : Attaches tag property parent step attach) :
    (attach parent).isArray = parent.isArray := by
  cases attaches <;> rfl

variable {root : Schema} {path otherPath : List Step}

/-- An attached part stands where it was attached. -/
theorem at?_inserted (attaches : Attaches tag property parent step attach)
    (found : root.at? path = some parent) (rest : List Step) :
    (root.modifyAt attach path).at? (path ++ [step] ++ rest) = property.at? rest := by
  rw [List.append_assoc, Schema.at?_modifyAt_append, found, Option.bind_some]
  change (attach parent).at? (step :: rest) = _
  rw [Schema.at?, attaches.part?_self, Option.bind_some]

theorem kept_of_uncovered (attaches : Attaches tag property parent step attach)
    (uncovered : ¬ path ++ [step] <+: otherPath) {rest : List Step}
    (further : otherPath = path ++ other :: rest) :
    (attach parent).part? other = parent.part? other := by
  refine attaches.part?_of_ne fun same => uncovered ⟨rest, ?_⟩
  rw [further, same, List.append_assoc, List.singleton_append]

/-- What is not within an attached part says what it said before, apart from the parent. -/
theorem map_at?_of_ne {β : Type} {view : Schema → β}
    (blind : ∀ schema step part, view (schema.withPart step part) = view schema)
    (attaches : Attaches tag property parent step attach) (found : root.at? path = some parent)
    (elsewhere : otherPath ≠ path) (uncovered : ¬ path ++ [step] <+: otherPath) :
    ((root.modifyAt attach path).at? otherPath).map view = (root.at? otherPath).map view :=
  Schema.map_at?_modifyAt_of_ne blind found elsewhere fun _ _ further =>
    attaches.kept_of_uncovered uncovered further

/-- What is not within an attached part says what it said before, if the parent does. -/
theorem map_at?_of_same {β : Type} {view : Schema → β}
    (blind : ∀ schema step part, view (schema.withPart step part) = view schema)
    (attaches : Attaches tag property parent step attach) (found : root.at? path = some parent)
    (same : view (attach parent) = view parent) (uncovered : ¬ path ++ [step] <+: otherPath) :
    ((root.modifyAt attach path).at? otherPath).map view = (root.at? otherPath).map view :=
  Schema.map_at?_modifyAt_of_same blind found same fun _ _ further =>
    attaches.kept_of_uncovered uncovered further

end Attaches

namespace Progress

/-- What a tag does: the path at which it inserts a part, if it does, and the progress that it
makes. -/
inductive Advances (progress : Progress) (tag : Tag) : Option (List Step) → Progress → Prop where
  | inserts (declares : tag.title = "property") {path : List Step} {property parent : Schema}
      {step : Step} {attach : Schema → Schema}
      (declared : progress.parentPath? (splitName tag.name).1 = some path)
      (converts : propertySchema tag = .ok property)
      (found : progress.root.at? path = some parent)
      (attaches : Attaches tag property parent step attach) :
    Advances progress tag (some (path ++ [step]))
      { progress with
        root := progress.root.modifyAt attach path
        declared := Entries.put tag.name (path ++ [step]) progress.declared }
  | sets (sets : tag.title = "propertyOpenapi") (named : tag.name ≠ "") {path : List Step}
      {part : Schema} (declared : Entries.get? tag.typeText progress.declared = some path)
      (found : progress.root.at? path = some part) :
    Advances progress tag none
      { progress with
        root := progress.root.modifyAt (fun part => part.withExtensions
          (Entries.put tag.name tag.description part.extensions)) path }
  | reports {error : TypedefError} (fails : progress.Fails tag error) :
    Advances progress tag none { progress with problems := progress.problems ++ [error] }
  | passes (undeclaring : tag.title ≠ "property")
      (unsetting : tag.title = "propertyOpenapi" → tag.name = "") :
    Advances progress tag none progress

/-- The path at which a tag inserts a part, if it does. -/
def insertion? (progress : Progress) (tag : Tag) : Option (List Step) :=
  if tag.title = "property" then
    match progress.declare tag with
    | .ok advanced => Entries.get? tag.name advanced.declared
    | .error _ => none
  else none

variable {progress advanced : Progress} {tag : Tag} {inserted : Option (List Step)}

theorem insertion?_of_apply_eq_error {error : TypedefError}
    (failure : progress.apply tag = .error error) : progress.insertion? tag = none := by
  rw [insertion?]
  split
  next declares =>
    rw [apply_of_declares declares] at failure
    rw [failure]
  next => rfl

/-- A tag does one of these things. -/
theorem advances_next (progress : Progress) (tag : Tag) :
    progress.Advances tag (progress.insertion? tag) (progress.next tag) := by
  cases outcome : progress.apply tag with
  | error error =>
      have reported : progress.next tag =
          { progress with problems := progress.problems ++ [error] } := by rw [next, outcome]
      rw [reported, insertion?_of_apply_eq_error outcome]
      exact .reports (apply_eq_error_iff.mp outcome)
  | ok advanced =>
      have advances : progress.next tag = advanced := by rw [next, outcome]
      rw [advances]
      rw [apply_eq] at outcome
      split at outcome
      next declares =>
        obtain ⟨path, property, parent, step, attach, declared, converts, found, attaches, rfl⟩ :=
          exists_of_declare_eq_ok outcome
        have here : progress.insertion? tag = some (path ++ [step]) := by
          rw [insertion?, if_pos declares, outcome]
          exact Entries.get?_put_self _ _ _
        rw [here]
        exact .inserts declares declared converts found attaches
      next undeclaring =>
        rw [insertion?, if_neg undeclaring]
        split at outcome
        next sets =>
          by_cases named : tag.name = ""
          · rw [extend, if_pos named] at outcome
            cases outcome
            exact .passes undeclaring fun _ => named
          · obtain ⟨path, part, declared, found, rfl⟩ := exists_of_extend_eq_ok named outcome
            exact .sets sets named declared found
        next unsetting =>
          cases outcome
          exact .passes undeclaring fun sets => absurd sets unsetting

theorem apply_eq_self (undeclaring : tag.title ≠ "property")
    (unsetting : tag.title = "propertyOpenapi" → tag.name = "") :
    progress.apply tag = .ok progress := by
  rw [apply_eq, if_neg undeclaring]
  split
  next sets => rw [extend, if_pos (unsetting sets)]
  next => rfl

/-- A tag does one thing only. -/
theorem Advances.next_eq (advances : progress.Advances tag inserted advanced) :
    progress.next tag = advanced := by
  cases advances with
  | inserts declares declared converts found attaches =>
      rw [next, apply_of_declares declares, declare_eq_ok declared converts found attaches]
  | sets sets named declared found =>
      rw [next, apply_of_sets sets, extend_eq_ok named declared found]
  | reports fails => rw [next, apply_eq_error_iff.mpr fails]
  | passes undeclaring unsetting => rw [next, apply_eq_self undeclaring unsetting]

theorem Advances.insertion?_eq (advances : progress.Advances tag inserted advanced) :
    progress.insertion? tag = inserted := by
  cases advances with
  | inserts declares declared converts found attaches =>
      rw [insertion?, if_pos declares, declare_eq_ok declared converts found attaches]
      exact Entries.get?_put_self _ _ _
  | sets sets named declared found => rw [insertion?, if_neg (sets ▸ by decide)]
  | reports fails => exact insertion?_of_apply_eq_error (apply_eq_error_iff.mpr fails)
  | passes undeclaring unsetting => rw [insertion?, if_neg undeclaring]

end Progress

/-- A part that was inserted: the tag that declares it, and where it was put. -/
structure Insertion where
  tag : Tag
  path : List Step

/-- The insertion that a tag makes, if it makes one. -/
def insertionOf (progress : Progress) (tag : Tag) : List Insertion :=
  ((progress.insertion? tag).map fun path => ⟨tag, path⟩).toList

theorem mem_insertionOf {progress : Progress} {tag : Tag} {insertion : Insertion} :
    insertion ∈ insertionOf progress tag ↔
      insertion.tag = tag ∧ progress.insertion? tag = some insertion.path := by
  obtain ⟨other, path⟩ := insertion
  rw [insertionOf]
  cases progress.insertion? tag <;> simp [eq_comm]

/-- The insertions of a run, in order. -/
def insertions (progress : Progress) : List Tag → List Insertion
  | [] => []
  | tag :: tags => insertionOf progress tag ++ insertions (progress.next tag) tags

theorem insertions_append (progress : Progress) (front back : List Tag) :
    insertions progress (front ++ back) =
      insertions progress front ++ insertions (front.foldl Progress.next progress) back := by
  induction front generalizing progress with
  | nil => rfl
  | cons tag front ih =>
      rw [List.cons_append, insertions, insertions, ih, List.append_assoc, List.foldl_cons]

end Typedef

end ApiAssembly
