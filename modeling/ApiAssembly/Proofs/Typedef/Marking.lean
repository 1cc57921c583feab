import ApiAssembly.Proofs.Typedef.Insertion

/-!
# Marked parts

To tell whether what stands at the end of a path is still the part that was put there, the part is
marked by a title, of which no declaration and no setting takes notice.  A mark stays through every
tag that does not insert a part at the same path or further up, and it is gone for good after one
that does.
-/

namespace ApiAssembly

open Comment (Tag Block)

namespace Schema

variable {root : Schema} {title : String} {path marked : List Step}

/-- A mark is seen further up as a mark further down, and nowhere else. -/
theorem at?_entitle (root : Schema) (title : String) (marked path : List Step) :
    (root.modifyAt (entitle title) marked).at? path =
      (root.at? path).map fun node =>
        if path <+: marked then node.modifyAt (entitle title) (marked.drop path.length)
        else node := by
  by_cases before : path <+: marked
  · obtain ⟨rest, rfl⟩ := before
    simp [at?_modifyAt_of_append]
  · simp only [before, if_false, Option.map_id']
    by_cases beyond : marked <+: path
    · obtain ⟨rest, rfl⟩ := beyond
      rw [at?_modifyAt_append, at?_append]
      cases rest with
      | nil => simp at before
      | cons step rest => simp only [at?, part?_entitle]
    · exact at?_modifyAt_of_apart beyond before

theorem modifyAt_entitle_withExtensions (node : Schema) (title : String) (rest : List Step)
    (extend : Entries String → Entries String) :
    (node.modifyAt (entitle title) rest).withExtensions
        (extend (node.modifyAt (entitle title) rest).extensions) =
      (node.withExtensions (extend node.extensions)).modifyAt (entitle title) rest := by
  cases rest with
  | nil => rfl
  | cons step rest =>
      cases found : node.part? step with
      | none =>
          rw [modifyAt_cons_of_eq_none found,
            modifyAt_cons_of_eq_none (by rw [part?_withExtensions, found])]
      | some part =>
          rw [modifyAt_cons_of_eq_some found,
            modifyAt_cons_of_eq_some (by rw [part?_withExtensions, found]), withPart_withExtensions,
            extensions_withPart]

/-- A mark at or below a schema leaves alone what its items are declared to be alike. -/
theorem alike_modifyAt_entitle {node element : Schema} (array : node.typeName = some "array")
    (alike : node.items = .each element) (title : String) (rest : List Step) :
    (node.modifyAt (entitle title) rest).typeName = some "array" ∧
      (node.modifyAt (entitle title) rest).items = .each element := by
  cases rest with
  | nil => exact ⟨array, alike⟩
  | cons step rest =>
      cases found : node.part? step with
      | none =>
          rw [modifyAt_cons_of_eq_none found]
          exact ⟨array, alike⟩
      | some part =>
          rw [modifyAt_cons_of_eq_some found]
          cases step with
          | property name => exact ⟨array, alike⟩
          | item index => simp [withPart, array, alike]

end Schema

namespace Typedef

/-- How a part is attached depends only on the items of the parent. -/
theorem Attaches.of_same {tag : Tag} {property parent other : Schema} {step : Step}
    {attach : Schema → Schema} (attaches : Attaches tag property parent step attach)
    (sameArray : other.isArray = parent.isArray) (sameItems : other.items = parent.items) :
    Attaches tag property other step attach := by
  cases attaches with
  | item array placed => exact .item (sameArray.trans array) (by rw [sameItems, placed])
  | property noArray => exact .property (sameArray.trans noArray)

/-- What is attached is attached beside a marked part as it is without the mark. -/
theorem Attaches.exists_withPart {tag : Tag} {property parent old : Schema} {step other : Step}
    {attach : Schema → Schema} (attaches : Attaches tag property parent step attach)
    (different : other ≠ step) (there : parent.part? other = some old) (new : Schema) :
    ∃ attachBeside, Attaches tag property (parent.withPart other new) step attachBeside ∧
      attachBeside (parent.withPart other new) = (attach parent).withPart other new := by
  cases attaches with
  | @item array schemas placed =>
      cases other with
      | property name =>
          exact ⟨_, (Attaches.item array placed).of_same (Schema.isArray_withPart _ _ _) rfl, rfl⟩
      | item index =>
          obtain ⟨items, present, inside⟩ := Schema.exists_of_item? there
          obtain ⟨within, -⟩ := List.getElem?_eq_some_iff.mp inside
          rw [present] at placed
          obtain rfl := Option.some.inj placed
          have placedBeside : placedItems? (parent.withPart (.item index) new).items =
              some (items.set index new) := by rw [Schema.withPart_item present, placedItems?]
          have beside : Attaches tag property (parent.withPart (.item index) new)
              (.item (items.set index new).length)
              (attachItem property tag.optional (items.set index new)) :=
            .item (by rw [Schema.isArray_withPart, array]) placedBeside
          rw [List.length_set] at beside
          refine ⟨_, beside, ?_⟩
          simp [attachItem, Schema.withPart, present, List.set_append_left _ _ within]
  | property noArray =>
      cases other with
      | property name =>
          have names : name ≠ (splitName tag.name).2 := fun same => different (same ▸ rfl)
          obtain ⟨properties, present, -⟩ := Option.bind_eq_some_iff.mp there
          refine ⟨_, (Attaches.property noArray).of_same (Schema.isArray_withPart _ _ _) rfl, ?_⟩
          simp [attachProperty, Schema.withPart, present, Entries.put_update_of_ne names]
      | item index =>
          obtain ⟨items, present, -⟩ := Schema.exists_of_item? there
          have beside : Attaches tag property (parent.withPart (.item index) new)
              (.property (splitName tag.name).2)
              (attachProperty (splitName tag.name).2 property tag.optional) :=
            .property (by rw [Schema.isArray_withPart, noArray])
          refine ⟨_, beside, ?_⟩
          simp [attachProperty, Schema.withPart, present]

/-- Of a part in whose place another one is attached nothing is left.  An item never takes the
place of another one. -/
theorem Attaches.withPart_self {tag : Tag} {property parent old : Schema} {step : Step}
    {attach : Schema → Schema} (attaches : Attaches tag property parent step attach)
    (there : parent.part? step = some old) (new : Schema) :
    Attaches tag property (parent.withPart step new) step attach ∧
      attach (parent.withPart step new) = attach parent := by
  cases attaches with
  | item array placed =>
      obtain ⟨items, present, inside⟩ := Schema.exists_of_item? there
      rw [present] at placed
      obtain rfl := Option.some.inj placed
      simp at inside
  | property noArray =>
      obtain ⟨properties, present, -⟩ := Option.bind_eq_some_iff.mp there
      refine ⟨(Attaches.property noArray).of_same (Schema.isArray_withPart _ _ _) rfl, ?_⟩
      simp [attachProperty, Schema.withPart, present, Entries.put_update]

/-- What is attached to a schema is attached to it with a mark somewhere else in it. -/
theorem Attaches.exists_entitled {tag : Tag} {property parent : Schema} {step : Step}
    {attach : Schema → Schema} (attaches : Attaches tag property parent step attach)
    (title : String) {rest : List Step} (uncovered : ¬ [step] <+: rest) :
    ∃ attachMarked,
      Attaches tag property (parent.modifyAt (Schema.entitle title) rest) step attachMarked ∧
      attachMarked (parent.modifyAt (Schema.entitle title) rest) =
        (attach parent).modifyAt (Schema.entitle title) rest := by
  cases rest with
  | nil =>
      refine ⟨attach, attaches.of_same rfl rfl, ?_⟩
      cases attaches <;> rfl
  | cons other rest =>
      have different : other ≠ step := fun same => uncovered (same ▸ ⟨rest, rfl⟩)
      have kept := attaches.part?_of_ne different
      cases there : parent.part? other with
      | none =>
          rw [there] at kept
          rw [Schema.modifyAt_cons_of_eq_none there, Schema.modifyAt_cons_of_eq_none kept]
          exact ⟨attach, attaches, rfl⟩
      | some part =>
          rw [there] at kept
          rw [Schema.modifyAt_cons_of_eq_some there, Schema.modifyAt_cons_of_eq_some kept]
          exact attaches.exists_withPart different there _

namespace Progress

/-- The progress with a mark at the end of a path. -/
def entitle (title : String) (marked : List Step) (progress : Progress) : Progress :=
  { progress with root := progress.root.modifyAt (Schema.entitle title) marked }

variable {progress advanced : Progress} {tag : Tag} {inserted : Option (List Step)}
variable {title : String} {marked : List Step}

/-- A tag fails for the same reason whatever is marked. -/
theorem Fails.entitle {error : TypedefError} (fails : progress.Fails tag error) (title : String)
    (marked : List Step) : (progress.entitle title marked).Fails tag error := by
  have lostMarked : ∀ path, progress.root.at? path = none →
      (progress.entitle title marked).root.at? path = none := by
    intro path lost
    rw [Progress.entitle, Schema.at?_entitle, lost, Option.map_none]
  cases fails with
  | undeclaredParent declares undeclared => exact .undeclaredParent declares undeclared
  | conversion declares declared unconvertible => exact .conversion declares declared unconvertible
  | lostParent declares declared converts lost =>
      exact .lostParent declares declared converts (lostMarked _ lost)
  | @homogeneousParent declares path property parent element declared converts found array alike =>
      have foundMarked := Schema.at?_entitle progress.root title marked path
      rw [found, Option.map_some] at foundMarked
      have kept := Schema.alike_modifyAt_entitle array alike title (marked.drop path.length)
      split at foundMarked
      · exact .homogeneousParent declares declared converts foundMarked kept.1 kept.2
      · exact .homogeneousParent declares declared converts foundMarked array alike
  | unknownTarget sets named undeclared => exact .unknownTarget sets named undeclared
  | lostTarget sets named declared lost =>
      exact .lostTarget sets named declared (lostMarked _ lost)

/-- A tag that inserts nothing at a mark or further up does what it does without the mark, and
the mark stays. -/
theorem Advances.entitle (advances : progress.Advances tag inserted advanced) (title : String)
    (uncovered : ∀ path ∈ inserted, ¬ path <+: marked) :
    (progress.entitle title marked).Advances tag inserted (advanced.entitle title marked) := by
  cases advances with
  | @inserts declares path property parent step attach declared converts found attaches =>
      have apart := uncovered _ rfl
      have parentMarked : (progress.entitle title marked).parentPath? (splitName tag.name).1 =
          some path := declared
      have foundMarked : (progress.entitle title marked).root.at? path =
          (some parent).map _ := found ▸ Schema.at?_entitle progress.root title marked path
      by_cases before : path <+: marked
      · obtain ⟨rest, rfl⟩ := before
        rw [List.prefix_append_right_inj] at apart
        rw [Option.map_some, if_pos (List.prefix_append path rest), List.drop_left] at foundMarked
        obtain ⟨attachMarked, attachesMarked, same⟩ := attaches.exists_entitled title apart
        have inserts := Advances.inserts declares parentMarked converts foundMarked attachesMarked
        have carried : ∀ node, progress.root.at? path = some node →
            attachMarked (node.modifyAt (Schema.entitle title) rest) =
              (attach node).modifyAt (Schema.entitle title) rest := by
          intro node present
          obtain rfl := Option.some.inj (found.symm.trans present)
          exact same
        have sameRoot := Schema.modifyAt_entitle_append carried
        rw [Progress.entitle, sameRoot] at inserts
        exact inserts
      · rw [Option.map_some, if_neg before] at foundMarked
        have inserts := Advances.inserts declares parentMarked converts foundMarked attaches
        rw [Progress.entitle, Schema.modifyAt_entitle_comm before] at inserts
        exact inserts
  | @sets sets named path part declared found =>
      have targetMarked : Entries.get? tag.typeText (progress.entitle title marked).declared =
          some path := declared
      have foundMarked : (progress.entitle title marked).root.at? path =
          (some part).map _ := found ▸ Schema.at?_entitle progress.root title marked path
      have setsMarked := Advances.sets sets named targetMarked foundMarked
      by_cases before : path <+: marked
      · obtain ⟨rest, rfl⟩ := before
        have carried : ∀ node, progress.root.at? path = some node → _ :=
          fun node _ => Schema.modifyAt_entitle_withExtensions node title rest
            (Entries.put tag.name tag.description)
        rw [Progress.entitle, Schema.modifyAt_entitle_append carried] at setsMarked
        exact setsMarked
      · rw [Progress.entitle, Schema.modifyAt_entitle_comm before] at setsMarked
        exact setsMarked
  | reports fails => exact .reports (fails.entitle title marked)
  | passes undeclaring unsetting => exact .passes undeclaring unsetting

/-- A part stays where it is through a tag that inserts nothing there or further up. -/
theorem Advances.isSome_at? (advances : progress.Advances tag inserted advanced)
    (uncovered : ∀ path ∈ inserted, ¬ path <+: marked) :
    (advanced.root.at? marked).isSome = (progress.root.at? marked).isSome := by
  have kept : (advanced.root.at? marked).map (fun _ => ()) =
      (progress.root.at? marked).map fun _ => () := by
    cases advances with
    | inserts declares declared converts found attaches =>
        exact attaches.map_at?_of_same (fun _ _ _ => rfl) found rfl (uncovered _ rfl)
    | sets sets named declared found =>
        exact Schema.map_at?_modifyAt_withExtensions (fun _ _ _ => rfl) (fun _ _ => rfl) found _ _
    | reports fails => rfl
    | passes undeclaring unsetting => rfl
  simpa using congrArg Option.isSome kept

/-- A part that is inserted at a mark or further up leaves nothing of the mark. -/
theorem Advances.entitle_of_covers {path : List Step}
    (advances : progress.Advances tag (some path) advanced) (covers : path <+: marked)
    (present : (progress.root.at? marked).isSome = true) (title : String) :
    (progress.entitle title marked).Advances tag (some path) advanced := by
  cases advances with
  | @inserts declares path property parent step attach declared converts found attaches =>
      obtain ⟨rest, rfl⟩ := covers
      rw [List.append_assoc, List.singleton_append] at present ⊢
      have parentMarked : (progress.entitle title (path ++ step :: rest)).parentPath?
          (splitName tag.name).1 = some path := declared
      have foundMarked : (progress.entitle title (path ++ step :: rest)).root.at? path =
          some (parent.modifyAt (Schema.entitle title) (step :: rest)) := by
        rw [Progress.entitle, Schema.at?_modifyAt_of_append, found, Option.map_some]
      rw [Schema.at?_append, found, Option.bind_some, Schema.at?] at present
      cases there : parent.part? step with
      | none => simp [there] at present
      | some old =>
          obtain ⟨attachesMarked, same⟩ :=
            attaches.withPart_self there (old.modifyAt (Schema.entitle title) rest)
          rw [← Schema.modifyAt_cons_of_eq_some there] at attachesMarked same
          have inserts := Advances.inserts declares parentMarked converts foundMarked attachesMarked
          have sameRoot : (progress.root.modifyAt (Schema.entitle title)
              (path ++ step :: rest)).modifyAt attach path =
                progress.root.modifyAt attach path := by
            rw [Schema.modifyAt_append, Schema.modifyAt_modifyAt]
            refine Schema.modifyAt_congr fun node here => ?_
            obtain rfl := Option.some.inj (found.symm.trans here)
            exact same
          rw [Progress.entitle, sameRoot] at inserts
          exact inserts

end Progress

section Run

variable {progress : Progress} {tags : List Tag} {marked : List Step}

/-- A mark stays through a run that inserts nothing there or further up, and so does the part. -/
theorem foldl_next_entitle
    (kept : ∀ insertion ∈ insertions progress tags, ¬ insertion.path <+: marked) (title : String) :
    tags.foldl Progress.next (progress.entitle title marked) =
        (tags.foldl Progress.next progress).entitle title marked ∧
      ((tags.foldl Progress.next progress).root.at? marked).isSome =
        (progress.root.at? marked).isSome := by
  induction tags generalizing progress with
  | nil => exact ⟨rfl, rfl⟩
  | cons tag tags ih =>
      rw [insertions, List.forall_mem_append] at kept
      have advances := progress.advances_next tag
      have uncovered : ∀ path ∈ progress.insertion? tag, ¬ path <+: marked :=
        fun path inserted => kept.1 ⟨tag, path⟩ (mem_insertionOf.mpr ⟨rfl, inserted⟩)
      obtain ⟨later, present⟩ := ih kept.2
      rw [List.foldl_cons, List.foldl_cons, (advances.entitle title uncovered).next_eq]
      exact ⟨later, present.trans (advances.isSome_at? uncovered)⟩

/-- A mark is gone after a run that inserts something there or further up. -/
theorem foldl_next_entitle_of_covered
    (covered : ∃ insertion ∈ insertions progress tags, insertion.path <+: marked)
    (present : (progress.root.at? marked).isSome = true) (title : String) :
    tags.foldl Progress.next (progress.entitle title marked) =
      tags.foldl Progress.next progress := by
  induction tags generalizing progress with
  | nil => simp [insertions] at covered
  | cons tag tags ih =>
      have advances := progress.advances_next tag
      rw [List.foldl_cons, List.foldl_cons]
      by_cases here : ∃ path ∈ progress.insertion? tag, path <+: marked
      · obtain ⟨path, inserted, covers⟩ := here
        rw [Option.mem_def.mp inserted] at advances
        rw [(advances.entitle_of_covers covers present title).next_eq]
      · have uncovered : ∀ path ∈ progress.insertion? tag, ¬ path <+: marked :=
          fun path inserted covers => here ⟨path, inserted, covers⟩
        rw [(advances.entitle title uncovered).next_eq]
        refine ih ?_ ((advances.isSome_at? uncovered).trans present)
        obtain ⟨insertion, member, covers⟩ := covered
        rcases List.mem_append.mp member with now | later
        · exact absurd covers (uncovered _ (mem_insertionOf.mp now).2)
        · exact ⟨insertion, later, covers⟩

end Run

end Typedef

end ApiAssembly
