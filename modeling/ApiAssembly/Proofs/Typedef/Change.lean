import ApiAssembly.Proofs.Typedef.Consistency

/-!
# Changes at the end of a path

A change at the end of a path is seen from there on: at the end of a longer path stands what the
changed schema has there, at the end of a shorter path a schema that differs in nothing but the
part that leads on, and at the end of any other path the same schema as before.  Changes at two
places can be made in either order, unless one of them makes away with the other place.
-/

namespace ApiAssembly

open Comment (Tag)

namespace Schema

variable {schema part : Schema} {step other : Step} {change : Schema → Schema}
variable {path rest : List Step}

theorem part?_withPart_of_ne (schema part : Schema) (different : other ≠ step) :
    (schema.withPart step part).part? other = schema.part? other := by
  cases step with
  | property name =>
      cases other with
      | property otherName =>
          have names : name ≠ otherName := fun same => different (same ▸ rfl)
          cases found : schema.properties <;>
            simp [part?, property?, withPart, found, Entries.get?_update, names]
      | item index => rfl
  | item index =>
      rw [withPart]
      split
      next schemas placed =>
        cases other with
        | property name => rfl
        | item otherIndex =>
            have indices : index ≠ otherIndex := fun same => different (same ▸ rfl)
            simp [part?, item?, placed, List.getElem?_set_ne indices]
      next => rfl

theorem withPart_withPart (schema old new : Schema) (step : Step) :
    (schema.withPart step old).withPart step new = schema.withPart step new := by
  cases step with
  | property name =>
      cases found : schema.properties <;> simp [withPart, found, Entries.update_update]
  | item index =>
      cases found : schema.items <;> simp [withPart, found]

theorem withPart_comm (schema first second : Schema) (different : other ≠ step) :
    (schema.withPart other first).withPart step second =
      (schema.withPart step second).withPart other first := by
  cases step with
  | property name =>
      cases other with
      | property otherName =>
          have names : otherName ≠ name := fun same => different (same ▸ rfl)
          cases found : schema.properties <;>
            simp [withPart, found, Entries.update_comm names]
      | item otherIndex => cases found : schema.items <;> simp [withPart, found]
  | item index =>
      cases other with
      | property otherName => cases found : schema.items <;> simp [withPart, found]
      | item otherIndex =>
          have indices : index ≠ otherIndex := fun same => different (same ▸ rfl)
          cases found : schema.items <;> simp [withPart, found, List.set_comm _ _ indices]

theorem isArray_withPart (schema : Schema) (step : Step) (part : Schema) :
    (schema.withPart step part).isArray = schema.isArray := by
  cases step with
  | property name => rfl
  | item index => cases found : schema.items <;> simp [withPart, isArray, found]

theorem required_withPart (schema : Schema) (step : Step) (part : Schema) :
    (schema.withPart step part).required = schema.required := by
  cases step with
  | property name => rfl
  | item index => cases found : schema.items <;> simp [withPart, found]

theorem extensions_withPart (schema : Schema) (step : Step) (part : Schema) :
    (schema.withPart step part).extensions = schema.extensions := by
  cases step with
  | property name => rfl
  | item index => cases found : schema.items <;> simp [withPart, found]

theorem at?_append (schema : Schema) (path rest : List Step) :
    schema.at? (path ++ rest) = (schema.at? path).bind fun node => node.at? rest := by
  induction path generalizing schema with
  | nil => rfl
  | cons step path ih =>
      rw [List.cons_append, at?, at?]
      cases schema.part? step with
      | none => rfl
      | some part => exact ih part

theorem modifyAt_append (change : Schema → Schema) (schema : Schema) (path rest : List Step) :
    schema.modifyAt change (path ++ rest) =
      schema.modifyAt (fun node => node.modifyAt change rest) path := by
  induction path generalizing schema with
  | nil => rfl
  | cons step path ih =>
      rw [List.cons_append, modifyAt, modifyAt]
      cases schema.part? step with
      | none => rfl
      | some part => exact congrArg (schema.withPart step) (ih part)

theorem modifyAt_cons_of_eq_some (found : schema.part? step = some part)
    (change : Schema → Schema) (path : List Step) :
    schema.modifyAt change (step :: path) = schema.withPart step (part.modifyAt change path) := by
  rw [modifyAt, found]

theorem modifyAt_cons_of_eq_none (absent : schema.part? step = none)
    (change : Schema → Schema) (path : List Step) :
    schema.modifyAt change (step :: path) = schema := by
  rw [modifyAt, absent]

/-- A change on the way through one part leaves the other parts as they are. -/
theorem part?_modifyAt_of_ne (schema : Schema) (change : Schema → Schema) (path : List Step)
    (different : other ≠ step) :
    (schema.modifyAt change (step :: path)).part? other = schema.part? other := by
  cases found : schema.part? step with
  | none => rw [modifyAt_cons_of_eq_none found]
  | some part =>
      rw [modifyAt_cons_of_eq_some found, part?_withPart_of_ne schema _ different]

/-- Two changes that do the same to what stands at the end of a path do the same. -/
theorem modifyAt_congr {first second : Schema → Schema}
    (same : ∀ node, schema.at? path = some node → first node = second node) :
    schema.modifyAt first path = schema.modifyAt second path := by
  induction path generalizing schema with
  | nil => exact same schema rfl
  | cons step path ih =>
      cases found : schema.part? step with
      | none => rw [modifyAt_cons_of_eq_none found, modifyAt_cons_of_eq_none found]
      | some part =>
          rw [modifyAt_cons_of_eq_some found, modifyAt_cons_of_eq_some found]
          refine congrArg (schema.withPart step) (ih fun node later => same node ?_)
          rw [at?, found]
          exact later

theorem modifyAt_modifyAt (first second : Schema → Schema) (schema : Schema) (path : List Step) :
    (schema.modifyAt first path).modifyAt second path =
      schema.modifyAt (fun node => second (first node)) path := by
  induction path generalizing schema with
  | nil => rfl
  | cons step path ih =>
      cases found : schema.part? step with
      | none =>
          rw [modifyAt_cons_of_eq_none found, modifyAt_cons_of_eq_none found,
            modifyAt_cons_of_eq_none found]
      | some part =>
          rw [modifyAt_cons_of_eq_some found, modifyAt_cons_of_eq_some found,
            modifyAt_cons_of_eq_some (part?_withPart found), withPart_withPart, ih]

theorem at?_modifyAt_self (change : Schema → Schema) (schema : Schema) (path : List Step) :
    (schema.modifyAt change path).at? path = (schema.at? path).map change := by
  induction path generalizing schema with
  | nil => rfl
  | cons step path ih =>
      cases found : schema.part? step with
      | none => simp [modifyAt_cons_of_eq_none found, at?, found]
      | some part => simp [modifyAt_cons_of_eq_some found, at?, found, part?_withPart found, ih]

/-- Beyond a change stands what the changed schema has there. -/
theorem at?_modifyAt_append (change : Schema → Schema) (schema : Schema) (path rest : List Step) :
    (schema.modifyAt change path).at? (path ++ rest) =
      (schema.at? path).bind fun node => (change node).at? rest := by
  rw [at?_append, at?_modifyAt_self, Option.bind_map]
  rfl

/-- On the way to a change stands a schema that is changed further on. -/
theorem at?_modifyAt_of_append (change : Schema → Schema) (schema : Schema)
    (path rest : List Step) :
    (schema.modifyAt change (path ++ rest)).at? path =
      (schema.at? path).map fun node => node.modifyAt change rest := by
  rw [modifyAt_append, at?_modifyAt_self]

/-- Off the way to a change stands what stood there before. -/
theorem at?_modifyAt_of_apart {otherPath : List Step} (notBeyond : ¬ path <+: otherPath)
    (notBefore : ¬ otherPath <+: path) :
    (schema.modifyAt change path).at? otherPath = schema.at? otherPath := by
  induction path generalizing schema otherPath with
  | nil => exact absurd List.nil_prefix notBeyond
  | cons step path ih =>
      cases otherPath with
      | nil => exact absurd List.nil_prefix notBefore
      | cons other otherPath =>
          cases found : schema.part? step with
          | none => rw [modifyAt_cons_of_eq_none found]
          | some part =>
              rw [modifyAt_cons_of_eq_some found, at?, at?]
              by_cases same : other = step
              · subst same
                rw [List.cons_prefix_cons, not_and] at notBeyond notBefore
                rw [part?_withPart found, found]
                exact ih (notBeyond rfl) (notBefore rfl)
              · rw [part?_withPart_of_ne schema _ same]

section View

variable {β : Type} {view : Schema → β}

/-- What does not depend on the parts of a schema is not affected by a change of what stands
within it, and neither is it affected by a change elsewhere. -/
theorem map_at?_modifyAt
    (blind : ∀ schema step part, view (schema.withPart step part) = view schema)
    (schema : Schema) {otherPath : List Step} (notBeyond : ¬ path <+: otherPath) :
    ((schema.modifyAt change path).at? otherPath).map view = (schema.at? otherPath).map view := by
  by_cases before : otherPath <+: path
  · obtain ⟨rest, rfl⟩ := before
    rw [at?_modifyAt_of_append, Option.map_map]
    congr 1
    funext node
    cases rest with
    | nil => simp at notBeyond
    | cons step rest =>
        rw [Function.comp_apply]
        cases found : node.part? step with
        | none => rw [modifyAt_cons_of_eq_none found]
        | some part => rw [modifyAt_cons_of_eq_some found, blind]
  · rw [at?_modifyAt_of_apart notBeyond before]

/-- A change that keeps the parts of a schema changes nothing that is said elsewhere, and one that
keeps a part changes nothing that is said in that part. -/
theorem map_at?_modifyAt_of_ne
    (blind : ∀ schema step part, view (schema.withPart step part) = view schema)
    {schema node : Schema} (found : schema.at? path = some node) {otherPath : List Step}
    (elsewhere : otherPath ≠ path)
    (kept : ∀ step rest, otherPath = path ++ step :: rest →
      (change node).part? step = node.part? step) :
    ((schema.modifyAt change path).at? otherPath).map view = (schema.at? otherPath).map view := by
  by_cases beyond : path <+: otherPath
  · obtain ⟨rest, rfl⟩ := beyond
    cases rest with
    | nil => simp at elsewhere
    | cons step rest =>
        rw [at?_modifyAt_append, at?_append, found, Option.bind_some, Option.bind_some, at?, at?,
          kept step rest rfl]
  · exact map_at?_modifyAt blind schema beyond

/-- A change that says the same about the schema and keeps its parts changes nothing that is
said anywhere. -/
theorem map_at?_modifyAt_of_same
    (blind : ∀ schema step part, view (schema.withPart step part) = view schema)
    {schema node : Schema} (found : schema.at? path = some node) {otherPath : List Step}
    (same : view (change node) = view node)
    (kept : ∀ step rest, otherPath = path ++ step :: rest →
      (change node).part? step = node.part? step) :
    ((schema.modifyAt change path).at? otherPath).map view = (schema.at? otherPath).map view := by
  by_cases here : otherPath = path
  · rw [here, at?_modifyAt found, found, Option.map_some, Option.map_some, same]
  · exact map_at?_modifyAt_of_ne blind found here kept

/-- Further keywords have nothing to do with what is said otherwise. -/
theorem map_at?_modifyAt_withExtensions
    (blind : ∀ schema step part, view (schema.withPart step part) = view schema)
    (same : ∀ schema extensions, view (schema.withExtensions extensions) = view schema)
    {schema node : Schema} (found : schema.at? path = some node)
    (extensions : Schema → Entries String) (otherPath : List Step) :
    ((schema.modifyAt (fun part => part.withExtensions (extensions part)) path).at? otherPath).map
      view = (schema.at? otherPath).map view :=
  map_at?_modifyAt_of_same blind found (same _ _) fun step _ _ =>
    part?_withExtensions node (extensions node) step

/-- A schema whose parts say nothing. -/
def surface (schema : Schema) : Schema :=
  { schema with
    items :=
      match schema.items with
      | .tuple schemas => .tuple (schemas.map fun _ => {})
      | items => items
    properties :=
      schema.properties.map fun properties => properties.map fun entry => (entry.1, {}) }

theorem surface_withPart (schema : Schema) (step : Step) (part : Schema) :
    (schema.withPart step part).surface = schema.surface := by
  cases step with
  | property name =>
      cases found : schema.properties with
      | none => simp [withPart, surface, found]
      | some properties =>
          have sameNames := congrArg (List.map fun key => (key, ({} : Schema)))
            (Entries.keys_update name (fun _ => part) properties)
          rw [Entries.keys, Entries.keys, List.map_map, List.map_map] at sameNames
          rw [withPart_property found, surface, surface, found]
          exact congrArg (fun entries => { schema.surface with properties := some entries })
            sameNames
  | item index =>
      cases found : schema.items with
      | absent => simp [withPart, surface, found]
      | each one => simp [withPart, surface, found]
      | tuple schemas =>
          have sameLength : (schemas.set index part).map (fun _ => ({} : Schema)) =
              schemas.map fun _ => {} := by simp
          rw [withPart_item found, surface, surface, found]
          simp only [sameLength]

end View

/-- Changes below different parts can be made in either order. -/
theorem modifyAt_comm_of_ne (schema : Schema) (first second : Schema → Schema)
    (different : other ≠ step) :
    (schema.modifyAt first (other :: rest)).modifyAt second (step :: path) =
      (schema.modifyAt second (step :: path)).modifyAt first (other :: rest) := by
  have keptStep := part?_modifyAt_of_ne schema first rest (Ne.symm different)
  have keptOther := part?_modifyAt_of_ne schema second path different
  cases there : schema.part? other with
  | none =>
      rw [there] at keptOther
      rw [modifyAt_cons_of_eq_none there, modifyAt_cons_of_eq_none keptOther]
  | some otherPart =>
      rw [there] at keptOther
      cases found : schema.part? step with
      | none =>
          rw [found] at keptStep
          rw [modifyAt_cons_of_eq_none keptStep, modifyAt_cons_of_eq_none found]
      | some part =>
          rw [found] at keptStep
          rw [modifyAt_cons_of_eq_some keptStep, modifyAt_cons_of_eq_some keptOther,
            modifyAt_cons_of_eq_some there, modifyAt_cons_of_eq_some found,
            withPart_comm _ _ _ different]

/-- A schema marked by a title. -/
def entitle (title : String) (schema : Schema) : Schema :=
  { schema with title := some title }

@[simp]
theorem part?_entitle (title : String) (schema : Schema) (step : Step) :
    (schema.entitle title).part? step = schema.part? step := by
  cases step <;> rfl

@[simp]
theorem withPart_entitle (title : String) (schema : Schema) (step : Step) (part : Schema) :
    (schema.entitle title).withPart step part = (schema.withPart step part).entitle title := by
  cases step with
  | property name => rfl
  | item index => cases found : schema.items <;> simp [withPart, entitle, found]

/-- A change that does not stand on the way to a mark can be made before the mark or after it. -/
theorem modifyAt_entitle_comm {title : String} {marked changed : List Step}
    (off : ¬ changed <+: marked) :
    (schema.modifyAt (entitle title) marked).modifyAt change changed =
      (schema.modifyAt change changed).modifyAt (entitle title) marked := by
  induction changed generalizing schema marked with
  | nil => exact absurd List.nil_prefix off
  | cons step changed ih =>
      cases marked with
      | nil =>
          rw [modifyAt_nil, modifyAt_nil]
          cases found : schema.part? step with
          | none =>
              rw [modifyAt_cons_of_eq_none found, modifyAt_cons_of_eq_none (by simp [found])]
          | some part =>
              rw [modifyAt_cons_of_eq_some found,
                modifyAt_cons_of_eq_some (by rw [part?_entitle, found]), withPart_entitle]
      | cons other marked =>
          by_cases same : other = step
          · subst same
            rw [List.cons_prefix_cons, not_and] at off
            cases found : schema.part? other with
            | none => simp only [modifyAt_cons_of_eq_none found]
            | some part =>
                simp only [modifyAt_cons_of_eq_some found,
                  modifyAt_cons_of_eq_some (part?_withPart found), withPart_withPart,
                  ih (off rfl)]
          · exact modifyAt_comm_of_ne schema _ _ same

/-- A change on the way to a mark that carries what is marked along keeps the mark. -/
theorem modifyAt_entitle_append {title : String} {first second : Schema → Schema}
    (carried : ∀ node, schema.at? path = some node →
      second (node.modifyAt (entitle title) rest) = (first node).modifyAt (entitle title) rest) :
    (schema.modifyAt (entitle title) (path ++ rest)).modifyAt second path =
      (schema.modifyAt first path).modifyAt (entitle title) (path ++ rest) := by
  rw [modifyAt_append, modifyAt_append, modifyAt_modifyAt, modifyAt_modifyAt]
  exact modifyAt_congr carried

end Schema

end ApiAssembly
