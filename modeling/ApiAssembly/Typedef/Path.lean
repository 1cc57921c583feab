import ApiAssembly.Schema.Basic

/-!
# Places within schemas

A path leads from a schema to one that is nested in it, through properties and through
places of a tuple of items.  The statements say that what a change at a path leaves
behind is the changed schema.
-/

namespace ApiAssembly

inductive Step where
  | property (name : String)
  | item (index : Nat)
deriving DecidableEq

namespace Schema

def property? (name : String) (schema : Schema) : Option Schema :=
  schema.properties.bind (Entries.get? name)

def item? (index : Nat) (schema : Schema) : Option Schema :=
  match schema.items with
  | .tuple schemas => schemas[index]?
  | _ => none

def part? (schema : Schema) : Step → Option Schema
  | .property name => schema.property? name
  | .item index => schema.item? index

/-- The schema at the end of a path. -/
def at? (schema : Schema) : List Step → Option Schema
  | [] => some schema
  | step :: path => (schema.part? step).bind fun part => part.at? path

def withPart (schema : Schema) (step : Step) (part : Schema) : Schema :=
  match step with
  | .property name =>
    { schema with properties := schema.properties.map (Entries.update name fun _ => part) }
  | .item index =>
    match schema.items with
    | .tuple schemas => { schema with items := .tuple (schemas.set index part) }
    | _ => schema

/-- The schema with a change made at the end of a path, if the path leads anywhere. -/
def modifyAt (change : Schema → Schema) (schema : Schema) : List Step → Schema
  | [] => change schema
  | step :: path =>
    match schema.part? step with
    | none => schema
    | some part => schema.withPart step (part.modifyAt change path)

@[simp] theorem at?_nil (schema : Schema) : schema.at? [] = some schema := rfl

@[simp] theorem modifyAt_nil (change : Schema → Schema) (schema : Schema) :
    schema.modifyAt change [] = change schema := rfl

theorem part?_withPart {schema part : Schema} {step : Step} {old : Schema}
    (present : schema.part? step = some old) :
    (schema.withPart step part).part? step = some part := by
  cases step with
  | property name =>
    cases found : schema.properties with
    | none => simp [part?, property?, found] at present
    | some properties =>
      simp only [part?, property?, found, Option.bind_some] at present
      simp [part?, property?, withPart, found, Entries.get?_update, present]
  | item index =>
    cases found : schema.items with
    | absent => simp [part?, item?, found] at present
    | each one => simp [part?, item?, found] at present
    | tuple schemas =>
      simp only [part?, item?, found] at present
      obtain ⟨inside, _⟩ := List.getElem?_eq_some_iff.mp present
      simp [part?, item?, withPart, found, inside]

theorem at?_modifyAt {change : Schema → Schema} {schema old : Schema} {path : List Step}
    (present : schema.at? path = some old) :
    (schema.modifyAt change path).at? path = some (change old) := by
  induction path generalizing schema with
  | nil => simp_all
  | cons step path ih =>
    cases found : schema.part? step with
    | none => simp [at?, found] at present
    | some part =>
      simp only [at?, found, Option.bind_some] at present
      simp [at?, modifyAt, found, part?_withPart found, ih present]

end Schema

end ApiAssembly
