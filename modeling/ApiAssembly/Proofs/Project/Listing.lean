import ApiAssembly.Proofs.Project.Following
import ApiAssembly.Proofs.Text.Bytes
import ApiAssembly.Proofs.Text.Search
import Mathlib.Data.List.Nodup

/-!
# The files of a project

A project is listed directory by directory, and what a directory holds is listed in the order of
its names.  Which files come out can be said of each of them alone, by the names on its path, and
they come out in the order of their paths.  What is read of them afterwards is what stands at these
paths.
-/

namespace ApiAssembly.Project

section Sorting

variable {α : Type}

theorem insertByName_perm (inserted : String × α) (entries : List (String × α)) :
    (insertByName inserted entries).Perm (inserted :: entries) := by
  fun_induction insertByName inserted entries with
  | case1 => exact .refl _
  | case2 => exact .refl _
  | case3 present rest later ih => exact (ih.cons present).trans (.swap inserted present rest)

theorem sortByName_perm (entries : List (String × α)) : (sortByName entries).Perm entries := by
  induction entries with
  | nil => exact .refl _
  | cons entry rest ih => exact (insertByName_perm entry (sortByName rest)).trans (ih.cons entry)

theorem pairwise_insertByName {inserted : String × α} {entries : List (String × α)}
    (new : ∀ entry ∈ entries, inserted.1 ≠ entry.1)
    (sorted : entries.Pairwise fun first second => first.1 < second.1) :
    (insertByName inserted entries).Pairwise fun first second => first.1 < second.1 := by
  induction entries with
  | nil => exact List.pairwise_singleton _ _
  | cons present rest ih =>
      obtain ⟨presentFirst, restSorted⟩ := List.pairwise_cons.mp sorted
      rw [insertByName]
      split
      · rename_i earlier
        refine List.pairwise_cons.mpr ⟨fun entry member => ?_, sorted⟩
        obtain rfl | member := List.mem_cons.mp member
        · exact earlier
        · exact earlier.trans (presentFirst entry member)
      · rename_i notEarlier
        have later : present.1 < inserted.1 :=
          (lt_or_gt_of_ne (new present (by simp))).resolve_left notEarlier
        refine List.pairwise_cons.mpr ⟨fun entry member => ?_,
          ih (fun entry member => new entry (by simp [member])) restSorted⟩
        obtain rfl | member :=
          List.mem_cons.mp ((insertByName_perm inserted rest).mem_iff.mp member)
        · exact later
        · exact presentFirst entry member

theorem pairwise_sortByName {entries : List (String × α)}
    (distinct : (Entries.keys entries).Nodup) :
    (sortByName entries).Pairwise fun first second => first.1 < second.1 := by
  induction entries with
  | nil => exact .nil
  | cons entry rest ih =>
      obtain ⟨new, restDistinct⟩ := List.nodup_cons.mp distinct
      refine pairwise_insertByName (fun other member same => new ?_) (ih restDistinct)
      exact same ▸ List.mem_map_of_mem ((sortByName_perm rest).mem_iff.mp member)

end Sorting

section Shown

/-- What a tree shows of what it holds: nothing with a hidden name on the way, and nothing below a
directory that is not entered. -/
structure FileTree.Shows (entry : FileTree) (names : List String) (found : FileTree) : Prop where
  held : entry.at? names = some found
  visible : ∀ name ∈ names, name.toList.head? ≠ some '.'
  entered : ∀ name ∈ names.dropLast, name ≠ "target" ∧ name ≠ "node_modules"

theorem isSkipped_eq_false_iff {name : String} {entry : FileTree} :
    isSkipped name entry = false ↔ name.toList.head? ≠ some '.' ∧
      (entry.isDirectory = true → name ≠ "target" ∧ name ≠ "node_modules") := by
  cases isDirectory : entry.isDirectory <;>
    simp [isSkipped, skippedDirectories, isDirectory]

theorem shows_nil_iff {entry found : FileTree} : entry.Shows [] found ↔ found = entry := by
  constructor
  · intro shows
    exact Option.some.inj (shows.held.symm.trans (entry.at?_nil))
  · rintro rfl
    exact ⟨found.at?_nil, by simp, by simp⟩

theorem shows_iff_of_not_isDirectory {entry found : FileTree} {names : List String}
    (noDirectory : entry.isDirectory = false) :
    entry.Shows names found ↔ names = [] ∧ found = entry := by
  cases names with
  | nil => simp [shows_nil_iff]
  | cons name rest =>
      refine iff_of_false (fun shows => ?_) (by simp)
      obtain ⟨entries, next, rfl, -⟩ := FileTree.exists_of_at?_cons shows.held
      cases noDirectory

/-- A directory shows what its entries show, if they are not left out. -/
theorem shows_cons_iff {entries : List (String × FileTree)} {name : String} {rest : List String}
    {found : FileTree} (noDirectory : found.isDirectory = false) :
    (FileTree.directory entries).Shows (name :: rest) found ↔
      ∃ next, Entries.get? name entries = some next ∧ isSkipped name next = false ∧
        next.Shows rest found := by
  constructor
  · rintro ⟨held, visible, entered⟩
    obtain ⟨next, here, below⟩ := Option.bind_eq_some_iff.mp held
    have nameEntered (isDirectory : next.isDirectory = true) :
        name ≠ "target" ∧ name ≠ "node_modules" := by
      cases rest with
      | nil =>
          obtain rfl : next = found := Option.some.inj ((next.at?_nil).symm.trans below)
          exact absurd isDirectory (by simp [noDirectory])
      | cons other rest => exact entered name (by simp)
    refine ⟨next, here, isSkipped_eq_false_iff.mpr ⟨visible name (by simp), nameEntered⟩, below,
      fun other member => visible other (by simp [member]), fun other member => ?_⟩
    cases rest with
    | nil => cases member
    | cons following rest => exact entered other (by simp [member])
  · rintro ⟨next, here, notSkipped, below, visible, entered⟩
    obtain ⟨nameVisible, nameEntered⟩ := isSkipped_eq_false_iff.mp notSkipped
    refine ⟨by rw [FileTree.at?_directory_cons, here, Option.bind_some, below], ?_, ?_⟩
    · rintro other (_ | ⟨_, member⟩)
      · exact nameVisible
      · exact visible other member
    · cases rest with
      | nil => exact List.forall_mem_nil _
      | cons following rest =>
          obtain ⟨nextEntries, -, rfl, -⟩ := FileTree.exists_of_at?_cons below
          rintro other (_ | ⟨_, member⟩)
          · exact nameEntered rfl
          · exact entered other member

end Shown

section Files

/-- The paths of two files compared name by name, and their names byte by byte. -/
def ProjectFile.Before (first second : ProjectFile) : Prop :=
  first.path.map Text.bytes < second.path.map Text.bytes

/-- The content of a file, or of the file to which a link at the given names leads. -/
def fileContent? (tree : FileTree) (names : List String) : FileTree → Option Content
  | .file content => some content
  | .link _ => (tree.lookupFrom? [] names).bind fun found => found.2.content?
  | .directory _ => none

theorem isDirectory_of_fileContent? {tree : FileTree} {names : List String} {found : FileTree}
    {content : Content} (some : fileContent? tree names found = some content) :
    found.isDirectory = false := by
  cases found with
  | file | link => rfl
  | directory => cases some

variable (tree : FileTree) (root : List String)

theorem mem_entryFiles_iff {path : List String} {entries : List (String × FileTree)}
    {listed : String × List ProjectFile} :
    listed ∈ entryFiles tree root path entries ↔ ∃ entry ∈ entries, listed =
      (entry.1, if isSkipped entry.1 entry.2 then []
        else filesAt tree root (path ++ [entry.1]) entry.2) := by
  induction entries with
  | nil => simp [entryFiles]
  | cons entry rest ih => rw [entryFiles, List.mem_cons, ih, List.exists_mem_cons_iff]

theorem keys_entryFiles (path : List String) (entries : List (String × FileTree)) :
    Entries.keys (entryFiles tree root path entries) = Entries.keys entries := by
  induction entries with
  | nil => rw [entryFiles, Entries.keys_nil, Entries.keys_nil]
  | cons entry rest ih => rw [entryFiles, Entries.keys_cons, Entries.keys_cons, ih]

theorem mem_filesAt_directory {path : List String} {entries : List (String × FileTree)}
    {file : ProjectFile} :
    file ∈ filesAt tree root path (.directory entries) ↔ ∃ entry ∈ entries,
      isSkipped entry.1 entry.2 = false ∧
        file ∈ filesAt tree root (path ++ [entry.1]) entry.2 := by
  rw [filesAt, List.mem_flatMap]
  simp only [(sortByName_perm _).mem_iff, mem_entryFiles_iff]
  constructor
  · rintro ⟨_, ⟨entry, member, rfl⟩, listed⟩
    cases skipped : isSkipped entry.1 entry.2 with
    | true => simp [skipped] at listed
    | false => exact ⟨entry, member, skipped, by simpa [skipped] using listed⟩
  · rintro ⟨entry, member, notSkipped, listed⟩
    exact ⟨_, ⟨entry, member, rfl⟩, by simpa [notSkipped] using listed⟩

theorem filesAt_of_not_isDirectory {entry : FileTree} (noDirectory : entry.isDirectory = false)
    (path : List String) :
    filesAt tree root path entry =
      ((fileContent? tree (root ++ path) entry).map (ProjectFile.mk path)).toList := by
  cases entry with
  | file content => rw [filesAt, fileContent?, Option.map_some, Option.toList_some]
  | directory entries => cases noDirectory
  | link target =>
      rw [filesAt, fileContent?]
      cases (tree.lookupFrom? [] (root ++ path)).bind fun found => found.2.content? with
      | none => rfl
      | some content => rfl

theorem mem_filesAt_of_not_isDirectory {entry : FileTree} (noDirectory : entry.isDirectory = false)
    {path : List String} {file : ProjectFile} :
    file ∈ filesAt tree root path entry ↔ ∃ names found, file.path = path ++ names ∧
      entry.Shows names found ∧
        fileContent? tree (root ++ file.path) found = some file.content := by
  rw [filesAt_of_not_isDirectory tree root noDirectory, Option.mem_toList, Option.map_eq_some_iff]
  constructor
  · rintro ⟨content, sameContent, rfl⟩
    exact ⟨[], entry, by simp, shows_nil_iff.mpr rfl, sameContent⟩
  · rintro ⟨names, found, samePath, shows, sameContent⟩
    obtain ⟨rfl, rfl⟩ := (shows_iff_of_not_isDirectory noDirectory).mp shows
    rw [List.append_nil] at samePath
    exact ⟨file.content, samePath ▸ sameContent, by rw [← samePath]⟩

/-- The files of an entry are those that it shows. -/
theorem mem_filesAt_iff {entry : FileTree} (wellNamed : entry.WellNamed) {path : List String}
    {file : ProjectFile} :
    file ∈ filesAt tree root path entry ↔ ∃ names found, file.path = path ++ names ∧
      entry.Shows names found ∧
        fileContent? tree (root ++ file.path) found = some file.content := by
  -- the path above stays general, as each entry is listed below its own name
  induction wellNamed generalizing path with
  | file content => exact mem_filesAt_of_not_isDirectory tree root rfl
  | link target => exact mem_filesAt_of_not_isDirectory tree root rfl
  | directory distinct areNames below ih =>
      rw [mem_filesAt_directory]
      constructor
      · rintro ⟨⟨name, next⟩, member, notSkipped, listed⟩
        obtain ⟨names, found, samePath, shows, sameContent⟩ :=
          (ih next (List.mem_map_of_mem member)).mp listed
        refine ⟨name :: names, found, by simpa using samePath, ?_, sameContent⟩
        exact (shows_cons_iff (isDirectory_of_fileContent? sameContent)).mpr
          ⟨next, Entries.get?_of_mem distinct member, notSkipped, shows⟩
      · rintro ⟨names, found, samePath, shows, sameContent⟩
        have noDirectory := isDirectory_of_fileContent? sameContent
        cases names with
        | nil =>
            obtain rfl := shows_nil_iff.mp shows
            cases noDirectory
        | cons name rest =>
            obtain ⟨next, here, notSkipped, nextShows⟩ := (shows_cons_iff noDirectory).mp shows
            have member := Entries.mem_of_get? here
            refine ⟨(name, next), member, notSkipped, (ih next (List.mem_map_of_mem member)).mpr ?_⟩
            exact ⟨rest, found, by simpa using samePath, nextShows, sameContent⟩

/-- The path of a file below a directory goes through the name under which it is listed. -/
theorem exists_path_of_mem_entryFiles {entries : List (String × FileTree)} {path : List String}
    (below : ∀ entry ∈ Entries.values entries, entry.WellNamed)
    {listed : String × List ProjectFile} (member : listed ∈ entryFiles tree root path entries)
    {file : ProjectFile} (held : file ∈ listed.2) :
    ∃ rest, file.path = path ++ [listed.1] ++ rest := by
  obtain ⟨entry, entryMember, rfl⟩ := (mem_entryFiles_iff tree root).mp member
  cases skipped : isSkipped entry.1 entry.2 with
  | true => simp [skipped] at held
  | false =>
      have wellNamed := below entry.2 (List.mem_map_of_mem entryMember)
      obtain ⟨rest, -, samePath, -⟩ :=
        (mem_filesAt_iff tree root wellNamed).mp (by simpa [skipped] using held)
      exact ⟨rest, samePath⟩

theorem before_of_name_lt {first second : ProjectFile} {path : List String} {name other : String}
    (earlier : name < other) {front back : List String}
    (firstPath : first.path = path ++ [name] ++ front)
    (secondPath : second.path = path ++ [other] ++ back) : first.Before second := by
  rw [ProjectFile.Before, firstPath, secondPath]
  simp only [List.append_assoc, List.map_append]
  exact List.append_left_lt (List.cons_lt_cons_iff.mpr (.inl (Text.bytes_lt_bytes earlier)))

/-- The files of an entry are in the order of their paths. -/
theorem pairwise_filesAt {entry : FileTree} (wellNamed : entry.WellNamed) (path : List String) :
    (filesAt tree root path entry).Pairwise ProjectFile.Before := by
  induction wellNamed generalizing path with
  | file content =>
      rw [filesAt]
      exact List.pairwise_singleton _ _
  | link target =>
      rw [filesAt]
      split
      · exact List.pairwise_singleton _ _
      · exact .nil
  | @directory entries distinct areNames below ih =>
      rw [filesAt, List.pairwise_flatMap]
      constructor
      · intro listed member
        obtain ⟨entry, entryMember, rfl⟩ :=
          (mem_entryFiles_iff tree root).mp ((sortByName_perm _).mem_iff.mp member)
        dsimp only
        split
        · exact .nil
        · exact ih entry.2 (List.mem_map_of_mem entryMember) (path ++ [entry.1])
      · -- the paths of files of different entries part at the names of the entries
        have namesDistinct : (Entries.keys (entryFiles tree root path entries)).Nodup := by
          rwa [keys_entryFiles]
        refine (pairwise_sortByName namesDistinct).imp_of_mem ?_
        intro first second firstMember secondMember earlier firstFile firstHeld
          secondFile secondHeld
        obtain ⟨front, firstPath⟩ := exists_path_of_mem_entryFiles tree root below
          ((sortByName_perm _).mem_iff.mp firstMember) firstHeld
        obtain ⟨back, secondPath⟩ := exists_path_of_mem_entryFiles tree root below
          ((sortByName_perm _).mem_iff.mp secondMember) secondHeld
        exact before_of_name_lt earlier firstPath secondPath

end Files

section Extensions

theorem dotless_extension (name : String) : '.' ∉ (Path.extension name).toList := by
  rw [Path.extension]
  split
  · rename_i cut
    rw [String.toList_ofList]
    exact (Text.eq_of_splitLast_eq_some cut).2
  · exact List.not_mem_nil

/-- Dots in front of a given extension make no difference. -/
theorem trimExtension_eq_iff {given extension : String} (dotless : '.' ∉ extension.toList) :
    trimExtension given = extension ↔
      ∃ dots, given.toList = List.replicate dots '.' ++ extension.toList := by
  rw [← String.toList_inj, trimExtension, String.toList_ofList]
  constructor
  · intro trimmed
    refine ⟨(given.toList.takeWhile (· = '.')).length, ?_⟩
    have dots := List.eq_replicate_of_mem (l := given.toList.takeWhile (· = '.'))
      fun c member => by simpa using List.mem_takeWhile_imp member
    rw [← dots, ← trimmed, List.takeWhile_append_dropWhile]
  · rintro ⟨dots, whole⟩
    rw [whole, List.dropWhile_append_of_pos (by simp), Text.dropWhile_eq_self]
    intro c first
    simpa using fun dot : c = '.' => dotless (dot ▸ List.mem_of_mem_head? first)

end Extensions

section Scanning

/-- A file that a project shows: its path leads down to it, or to a link to it, and what is read
there is its content. -/
structure ProjectFile.IsShown (tree : FileTree) (root : String) (entry : FileTree)
    (file : ProjectFile) : Prop where
  found : ∃ found, entry.Shows file.path found ∧ found.isDirectory = false
  content : (tree.lookup? (file.fullPath root)).bind (fun found => found.2.content?) =
    some file.content

/-- A list of exactly the files of the chosen extensions that a project shows, each of them once,
in the order of their paths. -/
structure Lists (tree : FileTree) (root : String) (entry : FileTree) (chosen : String → Prop)
    (files : List ProjectFile) : Prop where
  mem_iff (file : ProjectFile) :
    file ∈ files ↔ file.IsShown tree root entry ∧ chosen (Path.extension (file.name root))
  increasing : files.Pairwise ProjectFile.Before
  distinct : (files.map (ProjectFile.fullPath root)).Nodup

/-- An extension of files with fragments. -/
def IsYamlExtension (extension : String) : Prop :=
  extension = "yaml" ∨ extension = "yml"

/-- An extension of source files: a given one, but for dots in front, and not one of files with
fragments. -/
def IsSourceExtension (extensions : List String) (extension : String) : Prop :=
  ¬IsYamlExtension extension ∧ ∃ given ∈ extensions, ∃ dots,
    given.toList = List.replicate dots '.' ++ extension.toList

/-- The scan of a project, with what is gathered from it. -/
structure IsScan (tree : FileTree) (root : String) (entry : FileTree) (extensions : List String)
    (scan : Scan) : Prop where
  accessible : scan.inaccessible = 0
  yaml : Lists tree root entry IsYamlExtension scan.yamlFiles
  source : Lists tree root entry (IsSourceExtension extensions) scan.sourceFiles
  disjoint : (scan.yamlFiles.map (ProjectFile.fullPath root)).Disjoint
    (scan.sourceFiles.map (ProjectFile.fullPath root))
  fragments : scan.sources.yaml =
    (scan.yamlFiles.map (ProjectFile.fullPath root)).filterMap tree.readText?
  comments : scan.sources.comments =
    ((scan.sourceFiles.map (ProjectFile.fullPath root)).filterMap tree.readText?).flatMap
      fun text => (Comment.blockTexts text.toList).map String.ofList
  unreadable : scan.unreadable =
    ((scan.yamlFiles ++ scan.sourceFiles).map (ProjectFile.fullPath root)).filter
      fun path => (tree.readText? path).isNone

variable {tree : FileTree} {root : String} {place : Place} {entry : FileTree}

/-- What is listed of an entry is what its path in the whole tree leads to. -/
theorem fileContent?_eq_lookup? (wellNamed : tree.WellNamed)
    (leads : tree.lookup? root = some (place, entry)) {names : List String} {found : FileTree}
    (held : entry.at? names = some found) (noDirectory : found.isDirectory = false) :
    fileContent? tree (Path.names root ++ names) found =
      (tree.lookup? (Path.joinNames root names)).bind fun found => found.2.content? := by
  obtain ⟨rootNamed, rootLeads⟩ := FileTree.lookup?_eq_some_iff.mp leads
  obtain ⟨follows, here⟩ := FileTree.lookupFrom?_eq_some_iff.mp rootLeads
  have areNames := (wellNamed.of_at? here).isName_of_at? held
  rw [FileTree.lookup?_joinNames tree rootNamed areNames]
  cases found with
  | directory entries => cases noDirectory
  | link target => rfl
  | file content =>
      obtain ⟨left, further⟩ := FileTree.follow?_append follows
      have reached : tree.lookupFrom? [] (Path.names root ++ names) =
          some (place ++ names, .file content) := by
        apply FileTree.lookupFrom?_eq_some_iff.mpr
        rw [further, FileTree.at?_append, here]
        exact ⟨FileTree.follow?_of_at? areNames here held (by simp), held⟩
      rw [reached]
      rfl

/-- The files that are listed of a project are those that it shows. -/
theorem mem_filesAt_nil_iff (wellNamed : tree.WellNamed)
    (leads : tree.lookup? root = some (place, entry)) {file : ProjectFile} :
    file ∈ filesAt tree (Path.names root) [] entry ↔ file.IsShown tree root entry := by
  rw [mem_filesAt_iff tree _ (wellNamed.of_at? (FileTree.at?_of_lookup? leads))]
  constructor
  · rintro ⟨names, found, rfl, shows, content⟩
    have noDirectory := isDirectory_of_fileContent? content
    exact ⟨⟨found, shows, noDirectory⟩,
      (fileContent?_eq_lookup? wellNamed leads shows.held noDirectory).symm.trans content⟩
  · rintro ⟨⟨found, shows, noDirectory⟩, content⟩
    exact ⟨file.path, found, rfl, shows,
      (fileContent?_eq_lookup? wellNamed leads shows.held noDirectory).trans content⟩

/-- What is read at the path of a shown file is the text of the file. -/
theorem ProjectFile.IsShown.readText? {file : ProjectFile} (shown : file.IsShown tree root entry) :
    tree.readText? (file.fullPath root) = file.content.text? := by
  obtain ⟨⟨found, reached⟩, leads, content⟩ := Option.bind_eq_some_iff.mp shown.content
  simp [FileTree.readText?, leads, content]

theorem ProjectFile.IsShown.isName {file : ProjectFile} (shown : file.IsShown tree root entry)
    (wellNamed : entry.WellNamed) : ∀ name ∈ file.path, IsName name := by
  obtain ⟨found, shows, -⟩ := shown.found
  exact wellNamed.isName_of_at? shows.held

theorem ProjectFile.IsShown.eq_of_fullPath_eq {first second : ProjectFile}
    (wellNamed : entry.WellNamed) (firstShown : first.IsShown tree root entry)
    (secondShown : second.IsShown tree root entry)
    (samePath : first.fullPath root = second.fullPath root) : first = second := by
  have sameNames : first.path = second.path :=
    Path.joinNames_inj (firstShown.isName wellNamed) (secondShown.isName wellNamed) samePath
  have sameContent : first.content = second.content := by
    apply Option.some.inj
    rw [← firstShown.content, ← secondShown.content, samePath]
  exact congrArg₂ ProjectFile.mk sameNames sameContent

theorem ne_of_before {first second : ProjectFile} (before : first.Before second) :
    first ≠ second := by
  rintro rfl
  exact List.lt_irrefl _ before

/-- The files of some extensions, picked from all files of a project. -/
theorem lists_filter (wellNamed : tree.WellNamed) (leads : tree.lookup? root = some (place, entry))
    {chosen : String → Prop} {isChosen : ProjectFile → Bool}
    (picks : ∀ file, isChosen file = true ↔ chosen (Path.extension (file.name root))) :
    Lists tree root entry chosen ((filesAt tree (Path.names root) [] entry).filter isChosen) where
  mem_iff file := by
    rw [List.mem_filter, mem_filesAt_nil_iff wellNamed leads, picks]
  increasing := (pairwise_filesAt tree _
    (wellNamed.of_at? (FileTree.at?_of_lookup? leads)) []).filter _
  distinct := by
    have entryNamed := wellNamed.of_at? (FileTree.at?_of_lookup? leads)
    have shown {file : ProjectFile}
        (member : file ∈ (filesAt tree (Path.names root) [] entry).filter isChosen) :
        file.IsShown tree root entry :=
      (mem_filesAt_nil_iff wellNamed leads).mp (List.mem_filter.mp member).1
    have distinctFiles := ((pairwise_filesAt tree (Path.names root) entryNamed []).imp
      ne_of_before).filter isChosen
    exact List.Nodup.map_on (fun first firstMember second secondMember =>
      (shown firstMember).eq_of_fullPath_eq entryNamed (shown secondMember)) distinctFiles

theorem ProjectFile.isYaml_iff (root : String) (file : ProjectFile) :
    file.isYaml root = true ↔ IsYamlExtension (Path.extension (file.name root)) := by
  simp [isYaml, IsYamlExtension]

theorem ProjectFile.isSource_iff (root : String) (extensions : List String) (file : ProjectFile) :
    file.isSource root (extensions.map trimExtension) = true ↔
      IsSourceExtension extensions (Path.extension (file.name root)) := by
  rw [isSource, IsSourceExtension, ← isYaml_iff]
  simp [trimExtension_eq_iff (dotless_extension _)]

variable {files : List ProjectFile}

theorem readableTexts_eq_filterMap (shown : ∀ file ∈ files, file.IsShown tree root entry) :
    readableTexts files = (files.map (ProjectFile.fullPath root)).filterMap tree.readText? := by
  rw [readableTexts, List.filterMap_map]
  exact List.filterMap_congr fun file member => (shown file member).readText?.symm

theorem unreadable_eq_filter (shown : ∀ file ∈ files, file.IsShown tree root entry) :
    (files.filter fun file => file.content.text?.isNone).map (ProjectFile.fullPath root) =
      (files.map (ProjectFile.fullPath root)).filter fun path => (tree.readText? path).isNone := by
  rw [List.filter_map]
  refine congrArg _ (List.filter_congr fun file member => ?_)
  rw [Function.comp_apply, (shown file member).readText?]

/-- A scan finds the files that the project shows, and what is gathered is what they hold. -/
theorem scan_lists_shown_files (wellNamed : tree.WellNamed)
    (leads : tree.lookup? root = some (place, entry)) (extensions : List String) :
    IsScan tree root entry extensions (scan tree root extensions) := by
  have entryNamed := wellNamed.of_at? (FileTree.at?_of_lookup? leads)
  have yaml := lists_filter wellNamed leads (ProjectFile.isYaml_iff root)
  have source := lists_filter wellNamed leads (ProjectFile.isSource_iff root extensions)
  have yamlShown := fun file member => ((yaml.mem_iff file).mp member).1
  have sourceShown := fun file member => ((source.mem_iff file).mp member).1
  have scanned : scan tree root extensions =
      { root
        yamlFiles := (filesAt tree (Path.names root) [] entry).filter (ProjectFile.isYaml root)
        sourceFiles := (filesAt tree (Path.names root) [] entry).filter
          (ProjectFile.isSource root (extensions.map trimExtension)) } := by
    rw [scan, leads]
  rw [scanned]
  refine ⟨rfl, yaml, source, ?_, readableTexts_eq_filterMap yamlShown, ?_, ?_⟩
  · -- a file in both lists would be a file with a fragment and would not be one
    intro path yamlPath sourcePath
    obtain ⟨first, firstMember, rfl⟩ := List.mem_map.mp yamlPath
    obtain ⟨second, secondMember, samePath⟩ := List.mem_map.mp sourcePath
    obtain rfl := (sourceShown second secondMember).eq_of_fullPath_eq entryNamed
      (yamlShown first firstMember) samePath
    exact ((source.mem_iff second).mp secondMember).2.1 ((yaml.mem_iff second).mp firstMember).2
  · rw [← readableTexts_eq_filterMap sourceShown]
    rfl
  · exact unreadable_eq_filter fun file member =>
      (List.mem_append.mp member).elim (yamlShown file) (sourceShown file)

/-- A project with files, links to a file and to a directory, and names that are left out. -/
def sampleProject : FileTree :=
  .directory [
    ("src.d", .directory [("c.js", .file .binary), ("b.yml", .link "../a.yaml"),
      ("up", .link "..")]),
    ("src", .directory [("z.js", .file (.text "/** @tag a */ /* b */ /** c */"))]),
    ("a.yaml", .file (.text "paths: 1")),
    (".hidden.yaml", .file (.text "tags: 1")),
    ("target", .directory [("out.js", .file (.text "/** d */"))])]

/-- The project under its own name and under that of a link. -/
def sampleTree : FileTree :=
  .directory [("work", .link "home"), ("home", sampleProject)]

theorem wellNamed_sampleTree : sampleTree.WellNamed := by
  have project : sampleProject.WellNamed := by
    refine .directory (by decide) (by decide) ?_
    simp only [Entries.values, List.map, List.forall_mem_cons]
    refine ⟨.directory (by decide) (by decide) ?_, .directory (by decide) (by decide) ?_, .file _,
      .file _, .directory (by decide) (by decide) ?_, List.forall_mem_nil _⟩
    all_goals simp [Entries.values, FileTree.WellNamed.file, FileTree.WellNamed.link]
  refine .directory (by decide) (by decide) ?_
  simp [Entries.values, FileTree.WellNamed.link, project]

theorem lookup?_sampleTree :
    sampleTree.lookup? "work" = some (["home"], sampleProject) := by
  simp [FileTree.lookup?, FileTree.lookupFrom?, FileTree.follow?, Path.names, Path.splitChars,
    FileTree.linkLimit, Path.isAbsolute, FileTree.at?, sampleTree, Entries.get?, sampleProject]

theorem filesAt_sampleTree :
    filesAt sampleTree (Path.names "work") [] sampleProject =
      [⟨["a.yaml"], .text "paths: 1"⟩, ⟨["src", "z.js"], .text "/** @tag a */ /* b */ /** c */"⟩,
        ⟨["src.d", "b.yml"], .text "paths: 1"⟩, ⟨["src.d", "c.js"], .binary⟩] := by
  have file : sampleTree.lookupFrom? [] ["work", "src.d", "b.yml"] =
      some (["home", "a.yaml"], .file (.text "paths: 1")) := by
    simp [FileTree.lookupFrom?, FileTree.follow?, Path.names, Path.splitChars,
      FileTree.linkLimit, Path.isAbsolute, FileTree.at?, sampleTree, Entries.get?, sampleProject]
  have directory : sampleTree.lookupFrom? [] ["work", "src.d", "up"] =
      some (["home"], sampleProject) := by
    simp [FileTree.lookupFrom?, FileTree.follow?, Path.names, Path.splitChars,
      FileTree.linkLimit, Path.isAbsolute, FileTree.at?, sampleTree, Entries.get?, sampleProject]
  rw [show Path.names "work" = ["work"] by decide]
  simp [sampleProject, filesAt, entryFiles, file, directory, isSkipped, FileTree.isDirectory,
    skippedDirectories, FileTree.content?]
  decide

/-- Files are listed name by name: what is in `src` comes before what is in `src.d`. -/
theorem scan_sampleTree :
    sampleTree.WellNamed ∧ sampleTree.lookup? "work" = some (["home"], sampleProject) ∧
      IsScan sampleTree "work" sampleProject [".js"] (scan sampleTree "work" [".js"]) ∧
      (scan sampleTree "work" [".js"]).yamlFiles.map ProjectFile.path =
        [["a.yaml"], ["src.d", "b.yml"]] ∧
      (scan sampleTree "work" [".js"]).sourceFiles.map ProjectFile.path =
        [["src", "z.js"], ["src.d", "c.js"]] ∧
      (scan sampleTree "work" [".js"]).unreadable = ["work/src.d/c.js"] := by
  have scanned : scan sampleTree "work" [".js"] =
      { root := "work"
        yamlFiles := [⟨["a.yaml"], .text "paths: 1"⟩, ⟨["src.d", "b.yml"], .text "paths: 1"⟩]
        sourceFiles := [⟨["src", "z.js"], .text "/** @tag a */ /* b */ /** c */"⟩,
          ⟨["src.d", "c.js"], .binary⟩] } := by
    rw [scan, lookup?_sampleTree]
    simp only [filesAt_sampleTree]
    rfl
  refine ⟨wellNamed_sampleTree, lookup?_sampleTree,
    scan_lists_shown_files wellNamed_sampleTree lookup?_sampleTree [".js"], ?_⟩
  rw [scanned]
  exact ⟨rfl, rfl, by decide⟩

end Scanning

end ApiAssembly.Project
