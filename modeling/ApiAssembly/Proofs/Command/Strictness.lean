import ApiAssembly.Command.Run
import ApiAssembly.Proofs.Command.Flag

/-!
# Strict runs

A run writes and prints in steps, and a failure keeps what was done before it.  Whether the run
is strict matters only behind the last step: a strict run leaves behind what another run leaves,
and it fails besides if nothing else failed and the build recorded errors.  A run that cannot use
its models fails before the first step.
-/

namespace ApiAssembly.Command

open Document (Assembly)
open Project (FileTree)

/-- What a run does with a document: it is written or printed, and then the errors are written. -/
def delivered (tree : FileTree) (options : Options) (assembly : Assembly) : Outcome :=
  (deliver options assembly { tree }).andThen (deliverErrors options assembly)

/-- The document of a run whose paths lead to what they should. -/
def prepared (tree : FileTree) (options : Options) : Except RunError Assembly := do
  validate tree options
  assemble tree options

/-- Of two lists of options that differ in strictness alone, the strict one leaves behind what
the other leaves and fails where the other fails.  Where the other succeeds, it fails just if the
build recorded errors. -/
structure OnlyStricter (tree : FileTree) (lenient strict : Options) : Prop where
  lenient_eq : lenient = { strict with strict := false }
  strict_eq : strict = { lenient with strict := true }
  effects : (run tree strict).effects = (run tree lenient).effects
  failure : ∀ error, (run tree lenient).failure = some error →
    (run tree strict).failure = some error
  success : (run tree lenient).failure = none →
    ∃ assembly, assemble tree lenient = .ok assembly ∧
      (assembly.errors = [] → (run tree strict).failure = none) ∧
      (assembly.errors ≠ [] →
        (run tree strict).failure = some (.recordedErrors assembly.errors.length))

section Checking

variable {tree : FileTree} {options : Options} {assembly : Assembly}

theorem run_of_error {error : RunError} (failed : prepared tree options = .error error) :
    run tree options = ⟨{ tree }, some error⟩ := by
  rw [prepared] at failed
  rw [run, failed]

theorem run_of_ok (built : prepared tree options = .ok assembly) :
    run tree options =
      (delivered tree options assembly).andThen (checkErrors options assembly) := by
  rw [prepared] at built
  rw [run, built]
  rfl

theorem assemble_of_prepared (built : prepared tree options = .ok assembly) :
    assemble tree options = .ok assembly := by
  obtain ⟨-, -, assembled⟩ := bind_eq_ok_iff.mp built
  exact assembled

/-- The last check changes nothing but the failure. -/
theorem effects_andThen_checkErrors (outcome : Outcome) :
    (outcome.andThen (checkErrors options assembly)).effects = outcome.effects := by
  rw [Outcome.andThen]
  split
  · rw [checkErrors]
    split <;> rfl
  · rfl

theorem failure_andThen_checkErrors (outcome : Outcome) :
    (outcome.andThen (checkErrors options assembly)).failure =
      outcome.failure.or
        (if options.strict && assembly.hasErrors then
          some (.recordedErrors assembly.errors.length) else none) := by
  rw [Outcome.andThen]
  split
  · rename_i none
    rw [none, Option.none_or, checkErrors]
    split <;> rfl
  · rename_i error failed
    rw [failed, Option.some_or]

/-- A run whose document is not made fails alike, strict or not. -/
theorem onlyStricter_of_error {error : RunError}
    (failed : prepared tree { options with strict := false } = .error error) :
    OnlyStricter tree { options with strict := false } { options with strict := true } := by
  have strictFailed : prepared tree { options with strict := true } = .error error := failed
  have lenientRun := run_of_error failed
  have strictRun := run_of_error strictFailed
  refine ⟨rfl, rfl, by rw [lenientRun, strictRun], ?_, ?_⟩
  · intro other same
    rw [lenientRun] at same
    rw [strictRun]
    exact same
  · intro success
    rw [lenientRun] at success
    cases success

theorem onlyStricter_of_ok (built : prepared tree { options with strict := false } = .ok assembly) :
    OnlyStricter tree { options with strict := false } { options with strict := true } := by
  have strictBuilt : prepared tree { options with strict := true } = .ok assembly := built
  have lenientRun := run_of_ok built
  have strictRun := run_of_ok strictBuilt
  have sameSteps : delivered tree { options with strict := true } assembly =
      delivered tree { options with strict := false } assembly := rfl
  rw [sameSteps] at strictRun
  refine ⟨rfl, rfl, ?_, ?_, ?_⟩
  · rw [lenientRun, strictRun, effects_andThen_checkErrors, effects_andThen_checkErrors]
  · intro error failed
    rw [lenientRun, failure_andThen_checkErrors, Bool.false_and, if_neg Bool.false_ne_true,
      Option.or_none] at failed
    rw [strictRun, failure_andThen_checkErrors, failed, Option.some_or]
  · intro success
    rw [lenientRun, failure_andThen_checkErrors, Bool.false_and, if_neg Bool.false_ne_true,
      Option.or_none] at success
    rw [strictRun, failure_andThen_checkErrors, success, Option.none_or, Bool.true_and]
    refine ⟨assembly, assemble_of_prepared built, ?_, ?_⟩
    · intro none
      rw [if_neg (by simp [Document.Assembly.hasErrors, none])]
    · intro some
      rw [if_pos (by simpa [Document.Assembly.hasErrors] using some)]

/-- Options that differ in strictness alone lead to the same steps. -/
theorem onlyStricter (tree : FileTree) (options : Options) :
    OnlyStricter tree { options with strict := false } { options with strict := true } := by
  cases built : prepared tree { options with strict := false } with
  | error error => exact onlyStricter_of_error built
  | ok assembly => exact onlyStricter_of_ok built

end Checking

section Models

variable {tree : FileTree} {options : Options} {path : String}

theorem exists_loadModels_eq_error
    (unusable : ∀ text members, tree.readText? path = some text →
      Yaml.read? text ≠ some (.object members)) :
    ∃ error, Project.loadModels tree path = .error error := by
  rw [Project.loadModels]
  split
  · exact ⟨_, rfl⟩
  · rename_i text readable
    split
    · exact ⟨_, rfl⟩
    · rename_i members mapping
      exact absurd mapping (unusable text members readable)
    · exact ⟨_, rfl⟩

/-- A run that cannot use its models fails before it writes or prints. -/
theorem run_of_unusable (given : options.models = some path)
    (unusable : ∀ text members, tree.readText? path = some text →
      Yaml.read? text ≠ some (.object members)) :
    ∃ error, run tree options = ⟨{ tree }, some error⟩ := by
  obtain ⟨cause, failed⟩ := exists_loadModels_eq_error unusable
  have unassembled : assemble tree options = .error (.models cause) := by
    rw [assemble, given]
    simp only [failed]
    rfl
  cases valid : validate tree options with
  | error error => exact ⟨error, run_of_error (by rw [prepared, valid]; rfl)⟩
  | ok _ => exact ⟨.models cause, run_of_error (by rw [prepared, valid]; exact unassembled)⟩

end Models

/-- A command line with the flag `--strict` leaves behind what it leaves without the flag, and
fails as it does without it, and besides if the build recorded errors; the flag can be put in
front of every command line without it.  A run whose models cannot be read, or are no YAML text
of a mapping, fails and neither writes nor prints. -/
theorem run_strict_and_run_unusable (tree : FileTree) :
    (∀ front back strict, "--" ∉ front →
      Options.ofArguments (front ++ "--strict" :: back) = .ok strict →
        ∃ lenient, Options.ofArguments (front ++ back) = .ok lenient ∧
          OnlyStricter tree lenient strict) ∧
      (∀ arguments lenient, Options.ofArguments arguments = .ok lenient →
        lenient.strict = false →
          ∃ strict, Options.ofArguments ("--strict" :: arguments) = .ok strict ∧
            OnlyStricter tree lenient strict) ∧
      ∀ options path, options.models = some path →
        (∀ text members, tree.readText? path = some text →
          Yaml.read? text ≠ some (.object members)) →
            ∃ error, run tree options = { effects := { tree }, failure := some error } := by
  refine ⟨?_, ?_, fun options path given unusable => run_of_unusable given unusable⟩
  · intro front back strict unended parsed
    obtain ⟨isStrict, lenientParsed⟩ := ofArguments_without_strict unended parsed
    refine ⟨_, lenientParsed, ?_⟩
    have same := onlyStricter tree strict
    rwa [← isStrict] at same
  · intro arguments lenient parsed unset
    refine ⟨_, ofArguments_with_strict parsed unset, ?_⟩
    have same := onlyStricter tree lenient
    rwa [← unset] at same

/-- A project with a reference that leads nowhere, and beside it a list in place of models. -/
def danglingTree : FileTree :=
  .directory [
    ("project", .directory
      [("api.yaml", .file (.text "paths:\n  $ref: '#/components/schemas/Pet'\n"))]),
    ("models.yaml", .file (.text "- Pet\n"))]

theorem read?_danglingText :
    Yaml.read? "paths:\n  $ref: '#/components/schemas/Pet'\n" =
      some (.object [("paths", .object [("$ref", .string "#/components/schemas/Pet")])]) := by
  have tokens : Yaml.tokens? "paths:\n  $ref: '#/components/schemas/Pet'\n".toList =
      some [.blockMappingStart, .key, .scalar true "paths".toList, .value, .blockMappingStart,
        .key, .scalar true "$ref".toList, .value,
        .scalar false "#/components/schemas/Pet".toList, .blockEnd, .blockEnd] := by
    decide +kernel
  rw [Yaml.read?, Yaml.readNode, tokens]
  rfl

theorem errors_of_danglingText :
    (Document.assemble [.yaml "paths:\n  $ref: '#/components/schemas/Pet'\n"]).errors =
      [⟨.missingSchema "Pet", none⟩] := by
  have collected : Document.Collection.ofContributions
      [.yaml "paths:\n  $ref: '#/components/schemas/Pet'\n"] =
        { fragments :=
            [[("paths", .object [("$ref", .string "#/components/schemas/Pet")])]] } := by
    simp only [Document.Collection.ofContributions, List.foldl, Document.Collection.add,
      Document.Collection.addYaml, read?_danglingText]
    rfl
  rw [Document.assemble, collected]
  decide +kernel

theorem lookup?_danglingTree :
    danglingTree.lookup? "project" = some (["project"], .directory
      [("api.yaml", .file (.text "paths:\n  $ref: '#/components/schemas/Pet'\n"))]) := by
  simp [FileTree.lookup?, FileTree.lookupFrom?, FileTree.follow?, Project.Path.names,
    Project.Path.splitChars, FileTree.at?, danglingTree, Entries.get?]

theorem prepared_danglingTree (strict : Bool) :
    prepared danglingTree { project := "project", strict } =
      .ok (Document.assemble [.yaml "paths:\n  $ref: '#/components/schemas/Pet'\n"]) := by
  have valid : validate danglingTree { project := "project", strict } = .ok () := by
    simp only [validate, FileTree.hasDirectory, lookup?_danglingTree]
    rfl
  have scanned : (Project.scan danglingTree "project" ["js"]).sources =
      { yaml := ["paths:\n  $ref: '#/components/schemas/Pet'\n"] } := by
    rw [Project.scan, lookup?_danglingTree]
    simp only [Project.filesAt, Project.entryFiles]
    rfl
  have assembled : assemble danglingTree { project := "project", strict } =
      .ok (Document.assemble [.yaml "paths:\n  $ref: '#/components/schemas/Pet'\n"]) := by
    simp only [assemble, Project.defaultExtensions, scanned]
    rfl
  rw [prepared, valid, ← assembled]
  rfl

theorem unusable_danglingTree (text : String) (members : Members)
    (readable : danglingTree.readText? "models.yaml" = some text) :
    Yaml.read? text ≠ some (.object members) := by
  have held : danglingTree.readText? "models.yaml" = some "- Pet\n" := by
    simp [FileTree.readText?, FileTree.lookup?, FileTree.lookupFrom?, FileTree.follow?,
      Project.Path.names, Project.Path.splitChars, FileTree.at?, danglingTree, Entries.get?,
      FileTree.content?, Project.Content.text?]
  have tokens : Yaml.tokens? "- Pet\n".toList =
      some [.blockSequenceStart, .blockEntry, .scalar true "Pet".toList, .blockEnd] := by
    decide +kernel
  have list : Yaml.read? "- Pet\n" = some (.array [.string "Pet"]) := by
    rw [Yaml.read?, Yaml.readNode, tokens]
    rfl
  obtain rfl := Option.some.inj (held.symm.trans readable)
  simp [list]

/-- The flag, behind the project or in front of it, makes the run fail that succeeds without it;
and with the list for models the run fails anyway. -/
theorem run_danglingTree :
    ∃ strict lenient, Options.ofArguments ["project", "--strict"] = .ok strict ∧
      Options.ofArguments ["--strict", "project"] = .ok strict ∧
      Options.ofArguments ["project"] = .ok lenient ∧
      OnlyStricter danglingTree lenient strict ∧
      (run danglingTree lenient).failure = none ∧
      (run danglingTree strict).failure = some (.recordedErrors 1) ∧
      ∃ error, run danglingTree { lenient with models := some "models.yaml" } =
        { effects := { tree := danglingTree }, failure := some error } := by
  obtain ⟨behind, inFront, unusable⟩ := run_strict_and_run_unusable danglingTree
  have parsed : Options.ofArguments (["project"] ++ "--strict" :: []) =
      .ok { project := "project", strict := true } := rfl
  have lenientParsed : Options.ofArguments ["project"] = .ok { project := "project" } := rfl
  have succeeds : (run danglingTree { project := "project" }).failure = none := by
    rw [run_of_ok (prepared_danglingTree false), failure_andThen_checkErrors]
    rfl
  have fails : ∀ strict, OnlyStricter danglingTree { project := "project" } strict →
      (run danglingTree strict).failure = some (.recordedErrors 1) := by
    intro strict onlyStricter
    obtain ⟨assembly, assembled, -, recorded⟩ := onlyStricter.success succeeds
    rw [assemble_of_prepared (prepared_danglingTree false), Except.ok.injEq] at assembled
    subst assembled
    rw [errors_of_danglingText] at recorded
    exact recorded (List.cons_ne_nil _ _)
  obtain ⟨lenient, withoutFlag, onlyStricter⟩ := behind _ _ _ (by decide) parsed
  obtain ⟨strict, flagInFront, stricter⟩ := inFront _ _ lenientParsed rfl
  have sameLenient : lenient = { project := "project" } :=
    Except.ok.inj (withoutFlag.symm.trans lenientParsed)
  obtain rfl := stricter.strict_eq
  rw [sameLenient] at onlyStricter
  exact ⟨_, _, parsed, flagInFront, lenientParsed, onlyStricter, succeeds, fails _ stricter,
    unusable _ "models.yaml" rfl unusable_danglingTree⟩

end ApiAssembly.Command
