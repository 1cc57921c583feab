import ApiAssembly.Proofs.Document.Provision
import ApiAssembly.Proofs.Yaml.WellKeyed

/-!
# The fragments that contributions add

A contribution adds the same fragments whatever was collected before it, behind those
that are there, and nothing else that it does depends on the fragments.  So a fragment
that is put between contributions changes the fragments of the collection only.
-/

namespace ApiAssembly.Document

/-- A ready fragment has distinct keys at every depth.  What is read from a text has them
anyway. -/
def Contribution.WellKeyed : Contribution → Prop
  | .fragment members => (Value.object members).WellKeyed
  | .info _ | .yaml _ | .comments _ | .model _ _ => True

instance : DecidablePred Contribution.WellKeyed
  | .fragment members => inferInstanceAs (Decidable (Value.object members).WellKeyed)
  | .info _ | .yaml _ | .comments _ | .model _ _ => isTrue trivial

/-- The collection with other fragments. -/
def Collection.withFragments (collection : Collection) (fragments : List Members) :
    Collection :=
  { collection with fragments }

@[simp]
theorem Collection.fragments_withFragments (collection : Collection)
    (fragments : List Members) : (collection.withFragments fragments).fragments = fragments :=
  rfl

@[simp]
theorem Collection.withFragments_withFragments (collection : Collection)
    (fragments others : List Members) :
    (collection.withFragments fragments).withFragments others =
      collection.withFragments others :=
  rfl

@[simp]
theorem Collection.withFragments_self (collection : Collection) :
    collection.withFragments collection.fragments = collection :=
  rfl

/-- A step puts sound fragments behind the present ones, and what else it does is the same
for all fragments. -/
def AddsFragments (step : Collection → Collection) : Prop :=
  ∃ added : List Members, (∀ fragment ∈ added, SoundFragment fragment) ∧
    ∀ (collection : Collection) (front : List Members),
      step (collection.withFragments front) =
        (step collection).withFragments (front ++ added)

namespace AddsFragments

theorem of_unaffected {step : Collection → Collection}
    (unaffected : ∀ (collection : Collection) (front : List Members),
      step (collection.withFragments front) = (step collection).withFragments front) :
    AddsFragments step := by
  refine ⟨[], by simp, fun collection front => ?_⟩
  rw [unaffected, List.append_nil]

theorem comp {first second : Collection → Collection} (early : AddsFragments first)
    (late : AddsFragments second) :
    AddsFragments fun collection => second (first collection) := by
  obtain ⟨earlyAdded, earlySound, earlyStep⟩ := early
  obtain ⟨lateAdded, lateSound, lateStep⟩ := late
  refine ⟨earlyAdded ++ lateAdded, ?_, fun collection front => ?_⟩
  · intro fragment member
    rcases List.mem_append.mp member with inFirst | inSecond
    · exact earlySound fragment inFirst
    · exact lateSound fragment inSecond
  · change second (first (collection.withFragments front)) = _
    rw [earlyStep, lateStep, List.append_assoc]

theorem foldl {α : Type} {step : Collection → α → Collection} {items : List α}
    (each : ∀ item ∈ items, AddsFragments fun collection => step collection item) :
    AddsFragments fun collection => items.foldl step collection := by
  induction items with
  | nil => exact of_unaffected fun _ _ => rfl
  | cons item items ih =>
      exact comp (each item (by simp)) (ih fun other member => each other (by simp [member]))

/-- The fragments after a step are those before it and the added ones. -/
theorem exists_fragments {step : Collection → Collection} (adds : AddsFragments step)
    (collection : Collection) : ∃ added : List Members,
      (∀ fragment ∈ added, SoundFragment fragment) ∧
        (step collection).fragments = collection.fragments ++ added ∧
        ∀ front : List Members, step (collection.withFragments front) =
          (step collection).withFragments (front ++ added) := by
  obtain ⟨added, sound, adding⟩ := adds
  refine ⟨added, sound, ?_, adding collection⟩
  exact congrArg Collection.fragments (adding collection collection.fragments)

end AddsFragments

theorem soundFragment_normalize {members : Members}
    (wellKeyed : (Value.object members).WellKeyed) : SoundFragment (normalize members) :=
  ⟨sectioned_normalize members, wellKeyed_normalize wellKeyed⟩

theorem addsFragments_addFragment {members : Members}
    (wellKeyed : (Value.object members).WellKeyed) :
    AddsFragments fun collection => collection.addFragment members := by
  refine ⟨[normalize members], ?_, fun collection front => rfl⟩
  intro fragment member
  rw [List.mem_singleton.mp member]
  exact soundFragment_normalize wellKeyed

theorem addsFragments_record (cause : IssueCause) (source : String) :
    AddsFragments fun collection => collection.record cause source :=
  .of_unaffected fun _ _ => rfl

theorem addsFragments_addYaml (text : String) :
    AddsFragments fun collection => collection.addYaml text := by
  unfold Collection.addYaml
  split
  · rename_i members found
    exact addsFragments_addFragment (Yaml.wellKeyed_of_read? found)
  · exact .of_unaffected fun _ _ => rfl
  · exact addsFragments_record _ text
  · exact addsFragments_record _ text

theorem addsFragments_addEmbedded (source text : String) :
    AddsFragments fun collection => collection.addEmbedded source text := by
  unfold Collection.addEmbedded
  split
  · exact .of_unaffected fun _ _ => rfl
  · rename_i members _ found
    exact addsFragments_addFragment (Yaml.wellKeyed_of_read? found)
  · exact addsFragments_record _ source
  · exact addsFragments_record _ source

theorem addsFragments_addTypedef (source : String) (defined : Typedef) :
    AddsFragments fun collection => collection.addTypedef source defined := by
  have problems : AddsFragments fun collection => defined.problems.foldl
      (fun collected error => collected.record (.declaration defined.name error) source)
      collection :=
    .foldl fun error _ => addsFragments_record (.declaration defined.name error) source
  unfold Collection.addTypedef
  cases defined.rootTypeError with
  | none =>
      have defines : AddsFragments fun collection => { collection with
          typedefs := Entries.put defined.name defined.schema.toValue collection.typedefs } :=
        .of_unaffected fun _ _ => rfl
      exact problems.comp defines
  | some error =>
      have defines : AddsFragments fun collection =>
          { collection.warn (.rootType defined.name error) source with
            typedefs := Entries.put defined.name defined.schema.toValue collection.typedefs } :=
        .of_unaffected fun _ _ => rfl
      exact problems.comp defines

theorem addsFragments_addDefinition (source : String) (block : Comment.Block) :
    AddsFragments fun collection => collection.addDefinition source block := by
  unfold Collection.addDefinition
  split
  · exact .of_unaffected fun _ _ => rfl
  · exact addsFragments_record _ source
  · exact addsFragments_addTypedef source _

theorem addsFragments_addBlock (source : String) (block : Comment.Block) :
    AddsFragments fun collection => collection.addBlock source block := by
  unfold Collection.addBlock
  split
  · have embedded : AddsFragments fun collection =>
        (Collection.embeddedTexts block).foldl (Collection.addEmbedded source) collection :=
      .foldl fun text _ => addsFragments_addEmbedded source text
    exact embedded.comp (addsFragments_addDefinition source block)
  · exact addsFragments_record _ source

/-- Every contribution adds its own fragments. -/
theorem addsFragments_add {contribution : Contribution} (wellKeyed : contribution.WellKeyed) :
    AddsFragments fun collection => collection.add contribution := by
  cases contribution with
  | info | model => exact .of_unaffected fun _ _ => rfl
  | fragment members => exact addsFragments_addFragment wellKeyed
  | yaml text => exact addsFragments_addYaml text
  | comments text => exact .foldl fun block _ => addsFragments_addBlock text block

theorem addsFragments_foldl_add {contributions : List Contribution}
    (wellKeyed : ∀ contribution ∈ contributions, contribution.WellKeyed) :
    AddsFragments fun collection => contributions.foldl Collection.add collection :=
  .foldl fun contribution member => addsFragments_add (wellKeyed contribution member)

theorem sound_ofContributions {contributions : List Contribution}
    (wellKeyed : ∀ contribution ∈ contributions, contribution.WellKeyed) :
    (Collection.ofContributions contributions).Sound := by
  obtain ⟨added, sound, fragments, -⟩ :=
    (addsFragments_foldl_add wellKeyed).exists_fragments {}
  intro fragment member
  rw [Collection.ofContributions, fragments] at member
  exact sound fragment (by simpa using member)

/-- A fragment between contributions stands between their fragments, and nothing else
changes in the collection. -/
theorem exists_fragments_of_insertion {before after : List Contribution}
    (wellKeyed : ∀ contribution ∈ before ++ after, contribution.WellKeyed)
    (members : Members) : ∃ early late : List Members,
      (Collection.ofContributions (before ++ after)).fragments = early ++ late ∧
        Collection.ofContributions (before ++ .fragment members :: after) =
          (Collection.ofContributions (before ++ after)).withFragments
            (early ++ normalize members :: late) := by
  let collected := Collection.ofContributions before
  have afterKeyed : ∀ contribution ∈ after, contribution.WellKeyed :=
    fun contribution member => wellKeyed contribution (by simp [member])
  obtain ⟨late, -, fragments, adding⟩ :=
    (addsFragments_foldl_add afterKeyed).exists_fragments collected
  have whole : Collection.ofContributions (before ++ after) =
      after.foldl Collection.add collected :=
    List.foldl_append
  have inserted : Collection.ofContributions (before ++ .fragment members :: after) =
      after.foldl Collection.add
        (collected.withFragments (collected.fragments ++ [normalize members])) :=
    List.foldl_append
  refine ⟨collected.fragments, late, ?_, ?_⟩
  · rw [whole]
    exact fragments
  · rw [whole, inserted, adding]
    simp

end ApiAssembly.Document
