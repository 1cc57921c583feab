import ApiAssembly.Proofs.Document.Worklist

/-!
# Breadth-first provision

A round of provision is a stretch of the worklist: it ends where the queue holds exactly
the references of the schemas that the round added.  The first occurrences of unsettled
names in that queue are the names that the next scan of the document finds, because all
older references are settled.  So rounds and worklist handle the same names in the same
order, which is the order of their first mention.
-/

namespace ApiAssembly.Document

/-- The names that a document reaches through its references and those of the schemas on
offer under names without a schema. -/
inductive Reachable (offer? : String → Option Value) (document : Members) : String → Prop where
  | mentioned {name : String}
      (member : name ∈ (Value.object document).schemaReferences) :
      Reachable offer? document name
  | through {name next : String} {schema : Value} (reached : Reachable offer? document name)
      (undefined : name ∉ schemaNames document)
      (offer : offer? name = some schema)
      (member : next ∈ (Value.object [(name, schema)]).schemaReferences) :
      Reachable offer? document next

/-- The names without a schema that a document reaches, in breadth-first order: that of their
first mention in the references of the document, followed by those of the schemas that
are added, in the order in which they are added. -/
structure BreadthFirst (offer? : String → Option Value) (document : Members)
    (names : List String) : Prop where
  order : names =
    (((Value.object document).schemaReferences ++
        names.flatMap (queuedReferences offer?)).filter
      fun name => name ∉ schemaNames document).eraseDups
  mem_iff : ∀ name, name ∈ names ↔ Reachable offer? document name ∧ name ∉ schemaNames document

section FirstUnsettled

variable (document : Members)

theorem firstUnsettled_nil_handled (names : List String) :
    firstUnsettled document [] names =
      (names.filter fun name => name ∉ schemaNames document).eraseDups := by
  rw [firstUnsettled]
  congr 1
  apply List.filter_congr
  intro name _
  simp [isUnsettled, mem_schemaNames_iff]

theorem firstUnsettled_cons_of_settled {handled : List String} {name : String}
    (settled : isUnsettled document handled name = false) (names : List String) :
    firstUnsettled document handled (name :: names) =
      firstUnsettled document handled names := by
  rw [firstUnsettled, List.filter_cons_of_neg (by simp [settled]), firstUnsettled]

theorem firstUnsettled_cons_of_unsettled {handled : List String} {name : String}
    (unsettled : isUnsettled document handled name = true) (names : List String) :
    firstUnsettled document handled (name :: names) =
      name :: firstUnsettled document (handled ++ [name]) names := by
  rw [firstUnsettled, List.filter_cons_of_pos unsettled, List.eraseDups_cons,
    List.filter_filter, firstUnsettled]
  congr 2
  apply List.filter_congr
  intro other _
  rw [Bool.eq_iff_iff, Bool.and_eq_true, isUnsettled_iff, isUnsettled_iff]
  simp only [Bool.not_eq_true', beq_eq_false_iff_ne, List.mem_append, List.mem_singleton,
    not_or]
  tauto

theorem firstUnsettled_append (handled front back : List String) :
    firstUnsettled document handled (front ++ back) =
      firstUnsettled document handled front ++
        firstUnsettled document (handled ++ firstUnsettled document handled front) back := by
  induction front generalizing handled with
  | nil => simp [firstUnsettled]
  | cons name front ih =>
      cases settled : isUnsettled document handled name with
      | false =>
          rw [List.cons_append, firstUnsettled_cons_of_settled document settled,
            firstUnsettled_cons_of_settled document settled, ih]
      | true =>
          rw [List.cons_append, firstUnsettled_cons_of_unsettled document settled,
            firstUnsettled_cons_of_unsettled document settled, ih]
          simp

theorem firstUnsettled_eraseDups (handled names : List String) :
    firstUnsettled document handled names.eraseDups =
      firstUnsettled document handled names := by
  rw [firstUnsettled, eraseDups_filter, eraseDups_of_nodup (nodup_eraseDups names),
    ← eraseDups_filter, firstUnsettled]

theorem firstUnsettled_flatMap_queuedReferences (pool : String → Option Value)
    (handled names : List String) :
    firstUnsettled document handled (names.flatMap (queuedReferences (offered? pool document))) =
      firstUnsettled document handled (names.flatMap (newReferences pool document)) := by
  induction names generalizing handled with
  | nil => rfl
  | cons name names ih =>
      rw [List.flatMap_cons, List.flatMap_cons, firstUnsettled_append,
        firstUnsettled_append, queuedReferences_eq_eraseDups, firstUnsettled_eraseDups, ih]

end FirstUnsettled

section Queue

variable {typedefs models document : Members}

theorem hasPlace_afterHandling (pool : String → Option Value) (names : List String) :
    hasPlace (afterHandling pool document names).document = hasPlace document := by
  rw [hasPlace, openSchemas_afterHandling]
  by_cases place : hasPlace document = true
  · obtain ⟨frame, schemas, opened⟩ := exists_frame_of_hasPlace place
    rw [extendSchemas_of_frame opened, frame.schemas?_fill, place]
    rfl
  · rw [offeredMembers_of_not_hasPlace pool document (by simpa using place),
      extendSchemas_nil, hasPlace]

theorem known_afterHandling (pool : String → Option Value) (document : Members)
    (names : List String) (name : String) :
    (defines (afterHandling pool document names).document name = true ∨
        name ∈ (afterHandling pool document names).missing) ↔
      isUnsettled document names name = false := by
  rw [defines_afterHandling, missing_afterHandling, isUnsettled]
  cases defines document name <;> cases offer : offered? pool document name <;>
    simp [offer]

/-- Working through the front of a queue handles its unsettled names, and the references
of their schemas end up behind the rest of the queue. -/
theorem workThrough_append (typedefs models document : Members)
    (names queue rest : List String) :
    workThrough typedefs models (queue ++ rest)
        (afterHandling (pooled? typedefs models) document names) =
      workThrough typedefs models
        (rest ++ (firstUnsettled document names queue).flatMap
          (queuedReferences (offered? (pooled? typedefs models) document)))
        (afterHandling (pooled? typedefs models) document
          (names ++ firstUnsettled document names queue)) := by
  induction queue generalizing names rest with
  | nil => simp [firstUnsettled]
  | cons name queue ih =>
      have known := known_afterHandling (pooled? typedefs models) document names name
      cases settled : isUnsettled document names name with
      | false =>
          rw [List.cons_append, workThrough_cons_of_known (known.mpr settled), ih,
            firstUnsettled_cons_of_settled document settled]
      | true =>
          have unknown := mt known.mp (by simp [settled])
          obtain ⟨undefined, unhandled⟩ := isUnsettled_iff.mp settled
          have sameOffer : offered? (pooled? typedefs models)
              (afterHandling (pooled? typedefs models) document names).document =
                offered? (pooled? typedefs models) document := by
            funext other
            rw [offered?, offered?, hasPlace_afterHandling]
          rw [List.cons_append, workThrough_cons_of_unknown unknown, sameOffer,
            provide_afterHandling _ _ undefined unhandled, List.append_assoc, ih,
            firstUnsettled_cons_of_unsettled document settled]
          simp

/-- What holds of the queue where a round begins: its unsettled names are those that the
scan finds, and what was passed over or handled before is accounted for. -/
structure QueueAtRound (pool : String → Option Value) (document : Members)
    (names queue : List String) : Prop where
  needed : firstUnsettled document names queue = (afterHandling pool document names).needed
  order : ∃ passed, firstUnsettled document [] passed = names ∧
    passed ++ queue = (Value.object document).schemaReferences ++
      names.flatMap (queuedReferences (offered? pool document))
  reachable : ∀ name ∈ names ++ queue, Reachable (offered? pool document) document name

theorem queueAtRound_start (pool : String → Option Value) :
    QueueAtRound pool document [] (Value.object document).schemaReferences where
  needed := by
    rw [needed_afterHandling, Value.schemaReferences_eq_eraseDups,
      firstUnsettled_eraseDups, afterHandling_nil]
  order := ⟨[], rfl, by simp⟩
  reachable := fun name member => .mentioned (by simpa using member)

theorem QueueAtRound.round {pool : String → Option Value} {names queue : List String}
    (state : QueueAtRound pool document names queue) :
    QueueAtRound pool document (names ++ firstUnsettled document names queue)
      ((firstUnsettled document names queue).flatMap
        (queuedReferences (offered? pool document))) where
  needed := by
    rw [firstUnsettled_flatMap_queuedReferences, state.needed, needed_after_round]
  order := by
    obtain ⟨passed, handled, account⟩ := state.order
    refine ⟨passed ++ queue, ?_, ?_⟩
    · rw [firstUnsettled_append, handled, List.nil_append]
    · rw [account, List.flatMap_append, List.append_assoc]
  reachable := by
    have fresh : ∀ name ∈ firstUnsettled document names queue,
        Reachable (offered? pool document) document name := by
      intro name member
      exact state.reachable name (List.mem_append_right _ (mem_firstUnsettled.mp member).1)
    intro name member
    rw [List.append_assoc, List.mem_append, List.mem_append, List.mem_flatMap] at member
    rcases member with old | new | ⟨source, added, queued⟩
    · exact state.reachable name (List.mem_append_left _ old)
    · exact fresh name new
    · rw [queuedReferences] at queued
      cases offer : offered? pool document source with
      | none => simp [offer] at queued
      | some schema =>
          rw [offer] at queued
          have undefined := not_mem_schemaNames_iff.mpr (mem_firstUnsettled.mp added).2.1
          exact .through (fresh source added) undefined offer queued

/-- Where no name is needed any more, the handled names are in breadth-first order. -/
theorem QueueAtRound.breadthFirst {pool : String → Option Value} {names queue : List String}
    (state : QueueAtRound pool document names queue)
    (nothing : (afterHandling pool document names).needed = []) :
    BreadthFirst (offered? pool document) document names := by
  obtain ⟨passed, handled, account⟩ := state.order
  have order : names = firstUnsettled document []
      ((Value.object document).schemaReferences ++
        names.flatMap (queuedReferences (offered? pool document))) := by
    rw [← account, firstUnsettled_append, handled, List.nil_append, state.needed, nothing,
      List.append_nil]
  refine ⟨by rw [← firstUnsettled_nil_handled]; exact order, fun name => ⟨?_, ?_⟩⟩
  · intro member
    refine ⟨state.reachable name (List.mem_append_left _ member), ?_⟩
    rw [order] at member
    exact not_mem_schemaNames_iff.mpr (mem_firstUnsettled.mp member).2.1
  · rintro ⟨reached, undefined⟩
    induction reached with
    | mentioned member =>
        rw [order]
        exact mem_firstUnsettled.mpr
          ⟨List.mem_append_left _ member, not_mem_schemaNames_iff.mp undefined,
            List.not_mem_nil⟩
    | @through source next schema _ sourceUndefined offer member ih =>
        rw [order]
        refine mem_firstUnsettled.mpr
          ⟨List.mem_append_right _ (List.mem_flatMap.mpr ⟨source, ih sourceUndefined, ?_⟩),
            not_mem_schemaNames_iff.mp undefined, List.not_mem_nil⟩
        rw [queuedReferences, offer]
        exact member

/-- The worklist arrives where the rounds end. -/
theorem Settles.workThrough_eq {names queue : List String} {start final : Resolution}
    (rounds : Settles (pooled? typedefs models) start final)
    (begin : start = afterHandling (pooled? typedefs models) document names)
    (state : QueueAtRound (pooled? typedefs models) document names queue) :
    workThrough typedefs models queue start = final ∧
      ∃ all, final = afterHandling (pooled? typedefs models) document all ∧
        BreadthFirst (offered? (pooled? typedefs models) document) document all := by
  induction rounds generalizing names queue with
  | @done resolution nothing =>
      subst begin
      have settled := state.needed.trans nothing
      refine ⟨?_, names, rfl, state.breadthFirst nothing⟩
      have passed := workThrough_append typedefs models document names queue []
      rwa [settled, List.append_nil, List.append_nil, List.flatMap_nil, List.append_nil,
        workThrough_nil] at passed
  | @round resolution final something _ ih =>
      subst begin
      have handled := foldl_provide_needed (pooled? typedefs models) document names
      rw [← state.needed] at handled
      have stretch := workThrough_append typedefs models document names queue []
      rw [List.append_nil, List.nil_append, ← handled] at stretch
      rw [← state.needed] at ih
      rw [stretch]
      exact ih handled state.round

end Queue

namespace Collection

variable (collection : Collection)

/-- The resolution of a collection by the worklist, whose queue begins with the
references of the merged document. -/
def worked : Resolution :=
  workThrough collection.typedefs collection.models
    (Value.object collection.merged).schemaReferences ⟨collection.merged, []⟩

/-- The schemas that can be added to the merged document under some names, in the order of the
names. -/
def addable (names : List String) : Members :=
  names.filterMap fun name =>
    (addable? collection.typedefs collection.models collection.merged name).map
      fun schema => (name, schema)

theorem worked_eq_resolution : collection.worked = collection.resolution ∧
    ∃ names, collection.resolution =
      afterHandling (pooled? collection.typedefs collection.models) collection.merged names ∧
        BreadthFirst
          (offered? (pooled? collection.typedefs collection.models) collection.merged)
          collection.merged names :=
  collection.settles_pooled_resolution.workThrough_eq rfl (queueAtRound_start _)

end Collection

/-- The document of handled names: unchanged, or a frame with the schemas on offer behind
those that were there. -/
theorem document_afterHandling_cases (pool : String → Option Value) (document : Members)
    (names : List String) :
    ((afterHandling pool document names).document = document ∧
        offeredMembers pool document names = []) ∨
      ∃ (frame : SchemaFrame) (schemas : Members),
        openSchemas document = frame.fill schemas ∧
          (schemas? document).getD [] = schemas ∧
          (afterHandling pool document names).document =
            frame.fill (schemas ++ offeredMembers pool document names) := by
  by_cases noNames : names = []
  · subst noNames
    exact .inl ⟨rfl, rfl⟩
  · have extended : (afterHandling pool document names).document =
        extendSchemas (offeredMembers pool document names) document := by
      rw [afterHandling, if_neg noNames]
    rcases openSchemas_cases document with ⟨frame, schemas, opened, defined, -⟩ |
      ⟨unchanged, noSchemas⟩
    · right
      refine ⟨frame, schemas, opened, defined, ?_⟩
      rw [extended, extendSchemas_of_frame opened]
    · have closed : hasPlace document = false := by
        rw [hasPlace, unchanged, noSchemas]
        rfl
      have nothing := offeredMembers_of_not_hasPlace pool document closed names
      left
      rw [extended, nothing, extendSchemas_nil, unchanged]
      exact ⟨rfl, rfl⟩

/-- The repeated scans of a build and one pass of the worklist give the same document and
the same missing-reference errors.  The names that are handled are those without a schema that
the merged document reaches, in breadth-first order; those that can be added become the last
schemas of the document, the others are missing, and nothing else changes. -/
theorem assemble_eq_worklist (collection : Collection) :
    collection.assemble.document = .object collection.worked.document ∧
      collection.assemble.errors =
        collection.errors ++
          collection.worked.missing.map (fun name => ⟨.missingSchema name, none⟩) ∧
      (∀ final, Settles (pooled? collection.typedefs collection.models)
          ⟨collection.merged, []⟩ final ↔ final = collection.worked) ∧
      ∃ names,
        BreadthFirst (addable? collection.typedefs collection.models collection.merged)
          collection.merged names ∧
        collection.worked.missing = names.filter (fun name =>
          (addable? collection.typedefs collection.models collection.merged name).isNone) ∧
        ((collection.worked.document = collection.merged ∧ collection.addable names = []) ∨
          ∃ (frame : SchemaFrame) (schemas : Members),
            withSchemaMapping collection.merged = frame.fill schemas ∧
              (schemaMapping? collection.merged).getD [] = schemas ∧
              collection.worked.document =
                frame.fill (schemas ++ collection.addable names)) := by
  obtain ⟨worked, names, final, order⟩ := collection.worked_eq_resolution
  rw [addable?_eq_offered?]
  refine ⟨?_, ?_, ?_, names, order, ?_, ?_⟩
  · rw [worked]
    rfl
  · rw [worked]
    rfl
  · intro other
    rw [worked]
    constructor
    · intro rounds
      exact rounds.unique collection.settles_pooled_resolution
    · rintro rfl
      exact collection.settles_pooled_resolution
  · rw [worked, final, missing_afterHandling]
  · rw [worked, final, Collection.addable, addable?_eq_offered?,
      withSchemaMapping_eq_openSchemas, schemaMapping?_eq_schemas?]
    exact document_afterHandling_cases _ collection.merged names

end ApiAssembly.Document
