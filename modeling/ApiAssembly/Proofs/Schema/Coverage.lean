import ApiAssembly.Proofs.Schema.Equation
import ApiAssembly.Proofs.Schema.Record
import ApiAssembly.Proofs.TypeExpr.Reaching

/-!
# What a conversion takes into account

A conversion succeeds only if every part of the expression that it looks at is of a kind that
has a schema, and then the schema has a place for every name in the values that count.  Two
kinds of parts are left out: the further types that an array type is applied to are not looked
at, and an entry of a record is converted in vain if a later one has its key.  In expressions
without them nothing is lost.
-/

namespace ApiAssembly

namespace TypeExpr

/-- The expressions that are converted for the sake of an expression: of the types that a
generic type is applied to only the first. -/
def considered : TypeExpr → List TypeExpr
  | .generic _ objects => objects.take 1
  | other => other.operands

/-- The expressions whose schemas are part of a schema: of the entries of a record with the
same key only the last. -/
def shown : TypeExpr → List TypeExpr
  | .record entries => Entries.values (Entries.settled entries)
  | other => other.considered

/-- A generic type of this name is an array type: the name is `array`, in small letters or in
capital ones. -/
def NamesArray (subject : String) : Prop :=
  subject.toList.map Char.toLower = ['a', 'r', 'r', 'a', 'y']

instance (subject : String) : Decidable (NamesArray subject) :=
  inferInstanceAs (Decidable (_ = _))

theorem isArrayName_iff {subject : String} :
    Schema.isArrayName subject = true ↔ NamesArray subject := by
  rw [Schema.isArrayName, decide_eq_true_eq, Schema.lowerName, ← String.toList_inj,
    String.toList_ofList]
  exact Iff.rfl

/-- The expressions that have a schema if those below them do. -/
inductive Supported : TypeExpr → Prop where
  | name (name : String) : Supported (.name name)
  | number (value : Decimal.Binary64) : Supported (.number value)
  | string (value : String) : Supported (.string value)
  | union (left right : TypeExpr) : Supported (.union left right)
  | intersection (left right : TypeExpr) : Supported (.intersection left right)
  | parenthesis (inner : TypeExpr) : Supported (.parenthesis inner)
  | any : Supported .any
  | record (entries : List (String × TypeExpr)) : Supported (.record entries)
  | array {subject : String} (isArray : NamesArray subject) (element : TypeExpr) :
      Supported (.generic subject [element])

/-- An array type that is applied to more than one type. -/
inductive Surplus : TypeExpr → Prop where
  | array {subject : String} (isArray : NamesArray subject)
      (first second : TypeExpr) (others : List TypeExpr) :
      Surplus (.generic subject (first :: second :: others))

variable {expression part : TypeExpr}

theorem Supported.operands_subset (supported : expression.Supported) :
    expression.operands ⊆ expression.considered := by
  cases supported <;> exact List.Subset.refl _

theorem operands_subset_shown_of_supported (supported : expression.Supported)
    (distinct : ∀ entries, expression = .record entries → (Entries.keys entries).Nodup) :
    expression.operands ⊆ expression.shown := by
  cases supported with
  | record entries =>
      rw [shown, Entries.settled_of_nodup (distinct entries rfl)]
      exact List.Subset.refl _
  | _ => exact List.Subset.refl _

/-- Every part that is looked at in a conversion has a kind with a schema, or is an array type
with types that are not looked at. -/
def Covered (expression : TypeExpr) : Prop :=
  ∀ part : TypeExpr, part.Reached considered expression → part.Supported ∨ part.Surplus

theorem Covered.of_considered (here : expression.Supported ∨ expression.Surplus)
    (below : ∀ operand ∈ expression.considered, operand.Covered) : expression.Covered := by
  intro part reached
  rcases reached_iff.mp reached with rfl | ⟨operand, member, inside⟩
  · exact here
  · exact below operand member part inside

theorem Covered.of_alternatives (each : ∀ alternative ∈ expression.alternatives,
    alternative.Covered) : expression.Covered := by
  intro part reached
  rcases reached.cases_alternatives (fun _ _ => rfl) with
    ⟨left, right, rfl⟩ | ⟨alternative, member, inside⟩
  · exact .inl (.union left right)
  · exact each alternative member part inside

theorem Covered.of_conjuncts (each : ∀ conjunct ∈ expression.conjuncts, conjunct.Covered) :
    expression.Covered := by
  intro part reached
  rcases reached.cases_conjuncts (fun _ _ => rfl) with
    ⟨left, right, rfl⟩ | ⟨conjunct, member, inside⟩
  · exact .inl (.intersection left right)
  · exact each conjunct member part inside

/-- A chain of literals is covered if each literal is. -/
theorem Covered.of_literals {α : Type} {literals : List α} {literal : α → TypeExpr}
    (chain : expression.alternatives = literals.map literal)
    (nothing : ∀ value, (literal value).considered = [])
    (supported : ∀ value, (literal value).Supported) : expression.Covered := by
  refine .of_alternatives fun alternative member => ?_
  rw [chain] at member
  obtain ⟨value, -, rfl⟩ := List.mem_map.mp member
  refine .of_considered (.inl (supported value)) ?_
  rw [nothing]
  exact List.forall_mem_nil _

theorem supported_or_surplus {subject : String} (isArray : NamesArray subject)
    (element : TypeExpr) (others : List TypeExpr) :
    Supported (.generic subject (element :: others)) ∨
      Surplus (.generic subject (element :: others)) := by
  cases others with
  | nil => exact .inl (.array isArray element)
  | cons second others => exact .inr (.array isArray element second others)

variable (covered : expression.Covered)
  (noSurplus : ∀ part : TypeExpr, part.Within expression → ¬part.Surplus)

include covered noSurplus

/-- Without surplus types everything within an expression is looked at. -/
theorem reached_considered_of_within (within : part.Within expression) :
    part.Reached considered expression := by
  -- a step into a surplus type would leave what is looked at, but there is none on the way
  refine (reached_operands_iff.mpr within).of_subset fun middle inside looked => ?_
  have supported := (covered middle looked).resolve_right
    (noSurplus middle (reached_operands_iff.mp inside))
  exact supported.operands_subset

theorem supported_of_within (within : part.Within expression) : part.Supported :=
  (covered part (reached_considered_of_within covered noSurplus within)).resolve_right
    (noSurplus part within)

/-- If moreover no record has a key twice, everything has a place in the schema. -/
theorem reached_shown_of_within
    (distinct : ∀ entries, (record entries).Within expression → (Entries.keys entries).Nodup)
    (within : part.Within expression) : part.Reached shown expression := by
  refine (reached_operands_iff.mpr within).of_subset fun middle inside _ => ?_
  have middleWithin := reached_operands_iff.mp inside
  refine operands_subset_shown_of_supported (supported_of_within covered noSurplus middleWithin) ?_
  rintro entries rfl
  exact distinct entries middleWithin

end TypeExpr

namespace Schema

open TypeExpr (Covered considered shown)

variable {holds : TypeExpr → Schema → Prop} {expressions : List TypeExpr}
  {schemas : List Schema} {expression : TypeExpr} {schema : Schema}

theorem exists_schema_of_mem (each : List.Forall₂ holds expressions schemas)
    (member : expression ∈ expressions) : ∃ schema ∈ schemas, holds expression schema := by
  induction each with
  | nil => cases member
  | cons first _ ih =>
      rcases List.mem_cons.mp member with rfl | later
      · exact ⟨_, List.mem_cons_self, first⟩
      · obtain ⟨schema, among, inside⟩ := ih later
        exact ⟨schema, List.mem_cons_of_mem _ among, inside⟩

theorem forall_mem_covered
    (each : List.Forall₂ (fun expression _ => expression.Covered) expressions schemas) :
    ∀ expression ∈ expressions, expression.Covered := by
  intro expression member
  obtain ⟨schema, -, covered⟩ := exists_schema_of_mem each member
  exact covered

theorem closed_covered : ClosedUnderConversion fun expression _ => expression.Covered where
  name name := .of_considered (.inl (.name name)) (List.forall_mem_nil _)
  strings chain := .of_literals chain (fun _ => rfl) .string
  numbers chain := .of_literals chain (fun _ => rfl) .number
  alternatives each := .of_alternatives (forall_mem_covered each)
  conjuncts each := .of_conjuncts (forall_mem_covered each)
  parenthesis inside :=
    .of_considered (.inl (.parenthesis _)) (List.forall_mem_singleton.mpr inside)
  any := .of_considered (.inl .any) (List.forall_mem_nil _)
  record each := .of_considered (.inl (.record _)) (forall_mem_covered each)
  array isArray inside := by
    refine .of_considered ?_ (List.forall_mem_singleton.mpr inside)
    exact TypeExpr.supported_or_surplus (TypeExpr.isArrayName_iff.mp isArray) _ _

/-- A schema has a place for each name in the parts of an expression that count. -/
def Shows (expression : TypeExpr) (schema : Schema) : Prop :=
  ∀ name, (TypeExpr.name name).Reached shown expression → (ofName name).Within schema

theorem Shows.of_shown (noName : ∀ name, expression ≠ .name name)
    (below : ∀ operand ∈ expression.shown, ∃ inner ∈ schema.inner, Shows operand inner) :
    Shows expression schema := by
  intro name reached
  rcases TypeExpr.reached_iff.mp reached with same | ⟨operand, member, inside⟩
  · exact absurd same.symm (noName name)
  · obtain ⟨inner, among, shows⟩ := below operand member
    exact .inner among (shows name inside)

theorem Shows.of_alternatives (each : ∀ alternative ∈ expression.alternatives,
    ∃ inner ∈ schema.inner, Shows alternative inner) : Shows expression schema := by
  intro name reached
  rcases reached.cases_alternatives (fun _ _ => rfl) with
    ⟨left, right, same⟩ | ⟨alternative, member, inside⟩
  · cases same
  · obtain ⟨inner, among, shows⟩ := each alternative member
    exact .inner among (shows name inside)

theorem Shows.of_conjuncts (each : ∀ conjunct ∈ expression.conjuncts,
    ∃ inner ∈ schema.inner, Shows conjunct inner) : Shows expression schema := by
  intro name reached
  rcases reached.cases_conjuncts (fun _ _ => rfl) with
    ⟨left, right, same⟩ | ⟨conjunct, member, inside⟩
  · cases same
  · obtain ⟨inner, among, shows⟩ := each conjunct member
    exact .inner among (shows name inside)

/-- There are no names in a chain of literals. -/
theorem Shows.of_literals {α : Type} {literals : List α} {literal : α → TypeExpr}
    (chain : expression.alternatives = literals.map literal)
    (nothing : ∀ value, (literal value).shown = [])
    (noName : ∀ value name, literal value ≠ .name name) : Shows expression schema := by
  intro name reached
  rcases reached.cases_alternatives (fun _ _ => rfl) with
    ⟨left, right, same⟩ | ⟨alternative, member, inside⟩
  · cases same
  · rw [chain] at member
    obtain ⟨value, -, rfl⟩ := List.mem_map.mp member
    rcases TypeExpr.reached_iff.mp inside with same | ⟨operand, below, -⟩
    · exact absurd same.symm (noName value name)
    · rw [nothing] at below
      cases below

theorem closed_shows : ClosedUnderConversion Shows where
  name name := by
    intro other reached
    rcases TypeExpr.reached_iff.mp reached with same | ⟨operand, member, -⟩
    · cases same
      exact .self
    · cases member
  strings chain := .of_literals chain (fun _ => rfl) nofun
  numbers chain := .of_literals chain (fun _ => rfl) nofun
  alternatives each := by
    refine .of_alternatives fun alternative member => ?_
    rw [inner_oneOf]
    exact exists_schema_of_mem each member
  conjuncts each := by
    refine .of_conjuncts fun conjunct member => ?_
    rw [inner_allOf]
    exact exists_schema_of_mem each member
  parenthesis inside := by
    intro name reached
    rcases TypeExpr.reached_iff.mp reached with same | ⟨operand, member, within⟩
    · cases same
    · obtain rfl := List.mem_singleton.mp member
      exact inside name within
  any := .of_shown nofun (List.forall_mem_nil _)
  record each := by
    refine .of_shown nofun fun operand member => ?_
    rw [inner_properties]
    exact exists_schema_of_mem (Entries.corresponding_settled each).values member
  array _ inside := by
    refine .of_shown nofun (List.forall_mem_singleton.mpr ⟨_, ?_, inside⟩)
    rw [inner_arrayOf]
    exact List.mem_cons_self

/-- If an expression is converted, each part that is looked at is of a supported kind, or is an
array type that is applied to more than one type, and each name in a value that counts is shown
in the schema.  So if no array type is applied to more than one type, each part is of a
supported kind; and if moreover no record has a key twice, each name is shown. -/
theorem supported_and_shown_of_ofTypeExpr (converts : ofTypeExpr expression = .ok schema) :
    (∀ part : TypeExpr, part.Reached considered expression → part.Supported ∨ part.Surplus) ∧
      (∀ name, (TypeExpr.name name).Reached shown expression → (ofName name).Within schema) ∧
      ((∀ part : TypeExpr, part.Within expression → ¬part.Surplus) →
        (∀ part : TypeExpr, part.Within expression → part.Supported) ∧
          ((∀ entries, (TypeExpr.record entries).Within expression →
              (Entries.keys entries).Nodup) →
            ∀ name, (TypeExpr.name name).Within expression → (ofName name).Within schema)) := by
  have covered := closed_covered.of_ofTypeExpr converts
  have shows := closed_shows.of_ofTypeExpr converts
  refine ⟨covered, shows, fun noSurplus => ⟨fun part within => ?_, fun distinct name within => ?_⟩⟩
  · exact TypeExpr.supported_of_within covered noSurplus within
  · exact shows name (TypeExpr.reached_shown_of_within covered noSurplus distinct within)

/-- A name in the items of a property is shown. -/
theorem shown_petsRecord :
    (∀ part : TypeExpr, part.Within (.record [("pets", .generic "Array" [.name "Pet"])]) →
      part.Supported) ∧
      (ofName "Pet").Within
        { typeName := some "object", properties := some [("pets", arrayOf (ofName "Pet"))] } := by
  have converts : ofTypeExpr (.record [("pets", .generic "Array" [.name "Pet"])]) =
      .ok { typeName := some "object",
            properties := some [("pets", arrayOf (ofName "Pet"))] } := by
    have isArray : isArrayName "Array" = true := by decide
    simp only [ofTypeExpr, ofEntries, isArray, if_true]
    rfl
  have parts : ∀ part : TypeExpr,
      part.Within (.record [("pets", .generic "Array" [.name "Pet"])]) →
        part = .record [("pets", .generic "Array" [.name "Pet"])] ∨
          part = .generic "Array" [.name "Pet"] ∨ part = .name "Pet" := by
    rintro part (_ | ⟨member, _ | ⟨member', _ | ⟨member'', _⟩⟩⟩)
    · exact .inl rfl
    · exact .inr (.inl (List.mem_singleton.mp member))
    · cases List.mem_singleton.mp member
      exact .inr (.inr (List.mem_singleton.mp member'))
    · cases List.mem_singleton.mp member
      cases List.mem_singleton.mp member'
      cases member''
  obtain ⟨-, -, whole⟩ := supported_and_shown_of_ofTypeExpr converts
  obtain ⟨supported, shown⟩ := whole fun part within surplus => by
    rcases parts part within with rfl | rfl | rfl <;> cases surplus
  refine ⟨supported, shown (fun entries within => ?_) "Pet" ?_⟩
  · rcases parts _ within with same | same | same <;> cases same
    exact List.nodup_singleton "pets"
  · exact .inner List.mem_cons_self (.inner List.mem_cons_self .self)

/-- A reference is not within a schema without references. -/
theorem not_within_of_throughout {name : String}
    (noReference : schema.Throughout fun node => node.reference = none)
    (isReference : (ofName name).reference ≠ none) : ¬(ofName name).Within schema :=
  fun within => isReference (noReference _ within)

/-- Types behind the first one of an array type have no say in the schema, neither an unsupported
one nor a name, and neither has the name in an entry of a record whose key is written again. -/
theorem ofText_lost_parts :
    (∃ tree, TypeExpr.parse "Array<string, ?>" = .ok tree ∧ TypeExpr.unknown.Within tree ∧
      ¬TypeExpr.unknown.Supported ∧ ∃ schema, ofText "Array<string, ?>" = .ok schema) ∧
    (∃ tree, TypeExpr.parse "Array<string, Pet>" = .ok tree ∧ (TypeExpr.name "Pet").Within tree ∧
      ∃ schema, ofText "Array<string, Pet>" = .ok schema ∧ ¬(ofName "Pet").Within schema) ∧
    ∃ tree, TypeExpr.parse "\x7ba: Pet, a: string\x7d" = .ok tree ∧
      (TypeExpr.name "Pet").Within tree ∧
      ∃ schema, ofText "\x7ba: Pet, a: string\x7d" = .ok schema ∧
        ¬(ofName "Pet").Within schema := by
  have arguments (atom : TypeExpr.Atom) : TypeExpr.readTokens
      [.word "Array", .less, .word "string", .comma, atom.token, .greater] =
        .ok (.generic "Array" [.name "string", atom.tree]) :=
    TypeExpr.readTokens_eq_ok_iff_exists.mpr
      ⟨.single (.single (.suffixed (.generic "Array" false
          (.more (.single (.single (.suffixed (.atom (.word "string")) [])))
            (.last (.single (.single (.suffixed (.atom atom) [])))))) [])), rfl, rfl⟩
  have entries : TypeExpr.readTokens
      [.leftBrace, .word "a", .colon, .word "Pet", .comma, .word "a", .colon, .word "string",
        .rightBrace] = .ok (.record [("a", .name "Pet"), ("a", .name "string")]) :=
    TypeExpr.readTokens_eq_ok_iff_exists.mpr
      ⟨.single (.single (.suffixed (.record
          (.more (.word "a") (.single (.single (.suffixed (.atom (.word "Pet")) [])))
            (.last (.word "a") (.single (.single (.suffixed (.atom (.word "string")) [])))))) [])),
        rfl, rfl⟩
  have parsedUnknown : TypeExpr.parse "Array<string, ?>" =
      .ok (.generic "Array" [.name "string", .unknown]) :=
    TypeExpr.parse_of_tokens (by decide +kernel : TypeExpr.tokens "Array<string, ?>".toList =
      .ok [(0, .word "Array"), (5, .less), (6, .word "string"), (12, .comma), (14, .question),
        (15, .greater)]) (arguments .question)
  have parsedName : TypeExpr.parse "Array<string, Pet>" =
      .ok (.generic "Array" [.name "string", .name "Pet"]) :=
    TypeExpr.parse_of_tokens (by decide +kernel : TypeExpr.tokens "Array<string, Pet>".toList =
      .ok [(0, .word "Array"), (5, .less), (6, .word "string"), (12, .comma), (14, .word "Pet"),
        (17, .greater)]) (arguments (.word "Pet"))
  have parsedRecord : TypeExpr.parse "\x7ba: Pet, a: string\x7d" =
      .ok (.record [("a", .name "Pet"), ("a", .name "string")]) :=
    TypeExpr.parse_of_tokens
      (by decide +kernel : TypeExpr.tokens "\x7ba: Pet, a: string\x7d".toList =
        .ok [(0, .leftBrace), (1, .word "a"), (2, .colon), (4, .word "Pet"), (7, .comma),
          (9, .word "a"), (10, .colon), (12, .word "string"), (18, .rightBrace)]) entries
  have array (second : TypeExpr) :
      ofTypeExpr (.generic "Array" [.name "string", second]) = .ok (arrayOf (ofType "string")) := by
    have isArray : isArrayName "Array" = true := by decide
    simp only [ofTypeExpr, isArray, if_true]
    rfl
  have record : ofTypeExpr (.record [("a", .name "Pet"), ("a", .name "string")]) =
      .ok { typeName := some "object", properties := some [("a", ofType "string")] } := by
    simp only [ofTypeExpr, ofEntries]
    rfl
  have plain : (ofType "string").Throughout fun node => node.reference = none :=
    throughout_iff.mpr ⟨rfl, List.forall_mem_nil _⟩
  have second {first other : TypeExpr} : other.Within (.generic "Array" [first, other]) :=
    .inner (List.mem_cons_of_mem _ List.mem_cons_self) .self
  have lostBehind : ¬(ofName "Pet").Within (arrayOf (ofType "string")) :=
    not_within_of_throughout
      (throughout_iff.mpr ⟨rfl, List.forall_mem_singleton.mpr plain⟩) nofun
  have lostBefore : ¬(ofName "Pet").Within
      { typeName := some "object", properties := some [("a", ofType "string")] } :=
    not_within_of_throughout
      (throughout_iff.mpr ⟨rfl, List.forall_mem_singleton.mpr plain⟩) nofun
  exact ⟨⟨_, parsedUnknown, second, nofun, _, (ofText_of_parse parsedUnknown).trans (array _)⟩,
    ⟨_, parsedName, second, _, (ofText_of_parse parsedName).trans (array _), lostBehind⟩,
    _, parsedRecord, .inner List.mem_cons_self .self, _,
    (ofText_of_parse parsedRecord).trans record, lostBefore⟩

end Schema

end ApiAssembly
