import ApiAssembly.Document.Assembly

/-!
# The effects of contributions

What the reading of a text does to a collection is a list of effects.  The list depends on
the text alone, neither on what was collected before nor on the source under which issues
are recorded; so two readings of the same comments differ in these sources only.
-/

namespace ApiAssembly.Document

/-- One thing that reading a text does to a collection. -/
inductive Effect where
  | add (members : Members)
  | define (name : String) (schema : Value)
  | record (cause : IssueCause)
  | warn (cause : IssueCause)

namespace Effect

/-- Perform an effect, with the source that an issue is given. -/
def perform (source : String) (collection : Collection) : Effect → Collection
  | .add members => collection.addFragment members
  | .define name schema =>
    { collection with typedefs := Entries.put name schema collection.typedefs }
  | .record cause => collection.record cause source
  | .warn cause => collection.warn cause source

def performAll (source : String) (effects : List Effect) (collection : Collection) :
    Collection :=
  effects.foldl (perform source) collection

@[simp]
theorem performAll_nil (source : String) (collection : Collection) :
    performAll source [] collection = collection :=
  rfl

@[simp]
theorem performAll_singleton (source : String) (effect : Effect) (collection : Collection) :
    performAll source [effect] collection = perform source collection effect :=
  rfl

theorem performAll_append (source : String) (first second : List Effect)
    (collection : Collection) :
    performAll source (first ++ second) collection =
      performAll source second (performAll source first collection) :=
  List.foldl_append

/-- Steps that are lists of effects, taken one after the other, are one list of effects. -/
theorem foldl_eq_performAll {α : Type} {source : String}
    {step : Collection → α → Collection} {effects : α → List Effect}
    (each : ∀ collection item, step collection item =
      performAll source (effects item) collection)
    (items : List α) (collection : Collection) :
    items.foldl step collection = performAll source (items.flatMap effects) collection := by
  induction items generalizing collection with
  | nil => rfl
  | cons item items ih =>
      rw [List.foldl_cons, each, ih, List.flatMap_cons, performAll_append]

/-- The effects of a text with a fragment. -/
def ofYaml (text : String) : List Effect :=
  match Yaml.read? text with
  | some (.object members) => [.add members]
  | some .null => []
  | some other => [.record (.fragmentKind other.kind)]
  | none => [.record .malformedFragment]

/-- The effects of a fragment in a comment. -/
def ofEmbedded (text : String) : List Effect :=
  match Yaml.read? text with
  | some (.object []) => []
  | some (.object members) => [.add members]
  | some other => [.record (.embeddedKind other.kind)]
  | none => [.record .malformedEmbedding]

/-- The effects of a type definition that has a schema. -/
def ofTypedef (defined : Typedef) : List Effect :=
  defined.problems.map (fun error => .record (.declaration defined.name error)) ++
    defined.rootTypeError.toList.map (fun error => .warn (.rootType defined.name error)) ++
      [.define defined.name defined.schema.toValue]

/-- The effects of the type definition in a comment, if there is one. -/
def ofDefinition (block : Comment.Block) : List Effect :=
  match Typedef.ofBlock? block with
  | none => []
  | some (.error error) => [.record (.definition error)]
  | some (.ok defined) => ofTypedef defined

def ofBlock (block : Comment.Block) : List Effect :=
  if block.problems = [] then
    (Collection.embeddedTexts block).flatMap ofEmbedded ++ ofDefinition block
  else [.record (.faultyComment block.problems)]

end Effect

namespace Collection

open Effect (performAll)

variable (collection : Collection)

theorem addYaml_eq (text : String) :
    collection.addYaml text = performAll text (Effect.ofYaml text) collection := by
  cases read : Yaml.read? text with
  | none => simp [addYaml, Effect.ofYaml, read, Effect.perform]
  | some value => cases value <;> simp [addYaml, Effect.ofYaml, read, Effect.perform]

theorem addEmbedded_eq (source text : String) :
    collection.addEmbedded source text =
      performAll source (Effect.ofEmbedded text) collection := by
  cases read : Yaml.read? text with
  | none => simp [addEmbedded, Effect.ofEmbedded, read, Effect.perform]
  | some value =>
      cases value with
      | object members =>
          cases members <;> simp [addEmbedded, Effect.ofEmbedded, read, Effect.perform]
      | _ => simp [addEmbedded, Effect.ofEmbedded, read, Effect.perform]

theorem addTypedef_eq (source : String) (defined : Typedef) :
    collection.addTypedef source defined =
      performAll source (Effect.ofTypedef defined) collection := by
  have problems : defined.problems.foldl
      (fun collected error => collected.record (.declaration defined.name error) source)
      collection = performAll source
        (defined.problems.map fun error => .record (.declaration defined.name error))
        collection := by
    rw [performAll, List.foldl_map]
    rfl
  rw [addTypedef, Effect.ofTypedef, Effect.performAll_append, Effect.performAll_append, problems]
  cases defined.rootTypeError <;> rfl

theorem addDefinition_eq (source : String) (block : Comment.Block) :
    collection.addDefinition source block =
      performAll source (Effect.ofDefinition block) collection := by
  unfold addDefinition Effect.ofDefinition
  match Typedef.ofBlock? block with
  | none => rfl
  | some (.error error) => rfl
  | some (.ok defined) => exact addTypedef_eq collection source defined

theorem addBlock_eq (source : String) (block : Comment.Block) :
    collection.addBlock source block =
      performAll source (Effect.ofBlock block) collection := by
  unfold addBlock Effect.ofBlock
  split
  · rw [Effect.foldl_eq_performAll (fun present text => present.addEmbedded_eq source text),
      addDefinition_eq, Effect.performAll_append]
  · rfl

theorem addComments_eq (text : String) :
    collection.addComments text =
      performAll text ((Comment.parse text.toList).flatMap Effect.ofBlock) collection :=
  Effect.foldl_eq_performAll (fun present block => present.addBlock_eq text block) _ collection

end Collection

end ApiAssembly.Document
