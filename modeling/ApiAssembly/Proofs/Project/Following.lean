import ApiAssembly.Project.Scan
import ApiAssembly.Proofs.Entries

/-!
# Following paths

The entries of a directory have names of their own, and no name is mistaken for a step of another
kind.  Names that lead down to an entry without a link lead to the same entry when they are
followed, and so does the text of a path that is made of them.
-/

namespace ApiAssembly.Project

/-- What an entry of a directory can be called. -/
structure IsName (name : String) : Prop where
  notEmpty : name ≠ ""
  notHere : name ≠ "."
  notAbove : name ≠ ".."
  noSlash : '/' ∉ name.toList

instance (name : String) : Decidable (IsName name) :=
  decidable_of_iff (name ≠ "" ∧ name ≠ "." ∧ name ≠ ".." ∧ '/' ∉ name.toList)
    ⟨fun all => ⟨all.1, all.2.1, all.2.2.1, all.2.2.2⟩,
      fun isName => ⟨isName.notEmpty, isName.notHere, isName.notAbove, isName.noSlash⟩⟩

namespace Path

theorem splitChars_ne_nil (text : List Char) : splitChars text ≠ [] := by
  fun_cases splitChars text <;> simp [*]

theorem splitChars_append_slash (front back : List Char) :
    splitChars (front ++ '/' :: back) = splitChars front ++ splitChars back := by
  induction front with
  | nil => simp [splitChars]
  | cons c front ih =>
      by_cases slash : c = '/'
      · simp [splitChars, slash, ih]
      · obtain ⟨name, more, split⟩ := List.exists_cons_of_ne_nil (splitChars_ne_nil front)
        simp [splitChars, slash, ih, split]

theorem splitChars_of_noSlash {text : List Char} (noSlash : '/' ∉ text) :
    splitChars text = [text] := by
  induction text with
  | nil => rfl
  | cons c text ih =>
      rw [List.mem_cons, not_or] at noSlash
      simp [splitChars, Ne.symm noSlash.1, ih noSlash.2]

/-- A path behind which a slash is written before a name is added. -/
def IsOpen (base : String) : Prop :=
  ∃ c, base.toList.getLast? = some c ∧ c ≠ '/'

theorem IsOpen.ne_empty {base : String} (isOpen : IsOpen base) : base ≠ "" := by
  rintro rfl
  obtain ⟨c, last, -⟩ := isOpen
  cases last

variable {base name : String}

theorem not_isAbsolute_of_isName (isName : IsName name) : isAbsolute name = false := by
  rw [isAbsolute, decide_eq_false_iff_not]
  intro slash
  exact isName.noSlash (List.mem_of_head? slash)

theorem join_of_isOpen (isOpen : IsOpen base) (isName : IsName name) :
    join base name = base ++ "/" ++ name := by
  obtain ⟨c, last, noSlash⟩ := isOpen
  simp [join, not_isAbsolute_of_isName isName, last, noSlash]

theorem join_of_not_isOpen (closed : ¬IsOpen base) (isName : IsName name) :
    join base name = base ++ name := by
  have ends : base.toList.getLast?.all (· = '/') = true := by
    rw [Option.all_eq_true]
    intro c last
    by_contra noSlash
    exact closed ⟨c, last, by simpa using noSlash⟩
  simp only [join, not_isAbsolute_of_isName isName, ends, Bool.false_eq_true, if_false, if_true]

theorem isOpen_append (base : String) (isName : IsName name) : IsOpen (base ++ name) := by
  have some : name.toList ≠ [] := fun none => isName.notEmpty (String.toList_inj.mp none)
  refine ⟨name.toList.getLast some, ?_, ?_⟩
  · rw [String.toList_append, List.getLast?_append_of_ne_nil _ some, List.getLast?_eq_some_getLast]
  · exact fun slash => isName.noSlash (slash ▸ List.getLast_mem some)

theorem isOpen_join (base : String) (isName : IsName name) : IsOpen (join base name) := by
  by_cases isOpen : IsOpen base
  · exact join_of_isOpen isOpen isName ▸ isOpen_append _ isName
  · exact join_of_not_isOpen isOpen isName ▸ isOpen_append _ isName

theorem names_append_slash (base : String) (isName : IsName name) :
    names (base ++ "/" ++ name) = names base ++ [name] := by
  have chars : (base ++ "/" ++ name).toList = base.toList ++ '/' :: name.toList := by simp
  rw [names, chars, splitChars_append_slash, splitChars_of_noSlash isName.noSlash, List.map_append,
    List.map_singleton, String.ofList_toList, names]

/-- The name that is added takes the place of the empty one behind a slash at the end. -/
theorem names_join (base : String) (isName : IsName name) :
    ∃ front, (names base = front ∨ names base = front ++ [""]) ∧
      names (join base name) = front ++ [name] := by
  by_cases isOpen : IsOpen base
  · exact ⟨names base, .inl rfl, join_of_isOpen isOpen isName ▸ names_append_slash base isName⟩
  · rw [join_of_not_isOpen isOpen isName]
    obtain empty | ⟨init, c, chars⟩ := List.eq_nil_or_concat base.toList
    · obtain rfl : base = "" := String.toList_inj.mp empty
      refine ⟨[], .inr rfl, ?_⟩
      rw [String.empty_append, names, splitChars_of_noSlash isName.noSlash]
      simp
    · have slash : c = '/' := by
        by_contra noSlash
        exact isOpen ⟨c, by simp [chars], noSlash⟩
      obtain rfl : base = String.ofList init ++ "/" := by
        apply String.toList_inj.mp
        simp [chars, slash]
      refine ⟨names (String.ofList init), .inr ?_, names_append_slash _ isName⟩
      rw [names, String.toList_append, show "/".toList = '/' :: [] from rfl,
        splitChars_append_slash, List.map_append, names]
      rfl

theorem joinNames_cons (base name : String) (rest : List String) :
    joinNames base (name :: rest) = joinNames (join base name) rest := rfl

theorem names_joinNames_of_isOpen (isOpen : IsOpen base) {path : List String}
    (areNames : ∀ name ∈ path, IsName name) :
    names (joinNames base path) = names base ++ path := by
  induction path generalizing base with
  | nil => simp
  | cons name rest ih =>
      have isName := areNames name (by simp)
      rw [joinNames_cons, ih (isOpen_join base isName)
          (fun other member => areNames other (by simp [member])),
        join_of_isOpen isOpen isName, names_append_slash base isName, List.append_assoc,
        List.singleton_append]

theorem isOpen_joinNames (isOpen : IsOpen base) {path : List String}
    (areNames : ∀ name ∈ path, IsName name) : IsOpen (joinNames base path) := by
  induction path generalizing base with
  | nil => exact isOpen
  | cons name rest ih =>
      exact ih (isOpen_join base (areNames name (by simp)))
        (fun other member => areNames other (by simp [member]))

theorem names_joinNames (base : String) {path : List String}
    (areNames : ∀ name ∈ path, IsName name) :
    ∃ front, (names base = front ∨ names base = front ++ [""]) ∧
      names (joinNames base path) = front ++ path := by
  cases path with
  | nil => exact ⟨names base, .inl rfl, by simp⟩
  | cons name rest =>
      have isName := areNames name (by simp)
      obtain ⟨front, baseNames, joined⟩ := names_join base isName
      refine ⟨front, baseNames, ?_⟩
      rw [joinNames_cons, names_joinNames_of_isOpen (isOpen_join base isName)
          (fun other member => areNames other (by simp [member])), joined, List.append_assoc,
        List.singleton_append]

theorem joinNames_ne_empty (baseNamed : base ≠ "") {path : List String}
    (areNames : ∀ name ∈ path, IsName name) : joinNames base path ≠ "" := by
  cases path with
  | nil => exact baseNamed
  | cons name rest =>
      have joinOpen := isOpen_join base (areNames name (by simp))
      exact (isOpen_joinNames joinOpen
        (fun other member => areNames other (by simp [member]))).ne_empty

/-- Different names below a path make different texts. -/
theorem joinNames_inj {path other : List String} (areNames : ∀ name ∈ path, IsName name)
    (otherNames : ∀ name ∈ other, IsName name)
    (same : joinNames base path = joinNames base other) : path = other := by
  obtain ⟨front, baseFront, pathNames⟩ := names_joinNames base areNames
  obtain ⟨otherFront, baseOther, otherPathNames⟩ := names_joinNames base otherNames
  have split : front ++ path = otherFront ++ other := by rw [← pathNames, same, otherPathNames]
  have noEmpty {names : List String} (areNames : ∀ name ∈ names, IsName name) : "" ∉ names :=
    fun member => (areNames "" member).notEmpty rfl
  obtain baseFront | baseFront := baseFront <;> obtain baseOther | baseOther := baseOther <;>
    rw [baseFront] at baseOther
  · exact List.append_cancel_left (baseOther ▸ split)
  · rw [baseOther, List.append_assoc, List.append_cancel_left_eq] at split
    exact absurd (split ▸ List.mem_cons_self) (noEmpty otherNames)
  · rw [← baseOther, List.append_assoc, List.append_cancel_left_eq] at split
    exact absurd (split ▸ List.mem_cons_self) (noEmpty areNames)
  · exact List.append_cancel_left (List.append_cancel_right baseOther ▸ split)

end Path

namespace FileTree

/-- In every directory of a tree each entry has a name of its own. -/
inductive WellNamed : FileTree → Prop
  | file (content : Content) : WellNamed (.file content)
  | link (target : String) : WellNamed (.link target)
  | directory {entries : List (String × FileTree)} (distinct : (Entries.keys entries).Nodup)
      (names : ∀ name ∈ Entries.keys entries, IsName name)
      (below : ∀ entry ∈ Entries.values entries, entry.WellNamed) : WellNamed (.directory entries)

section Places

theorem at?_directory_cons (entries : List (String × FileTree)) (name : String) (rest : Place) :
    (directory entries).at? (name :: rest) =
      (Entries.get? name entries).bind fun entry => entry.at? rest := rfl

/-- Only a directory has something below it. -/
theorem exists_of_at?_cons {tree found : FileTree} {name : String} {rest : Place}
    (held : tree.at? (name :: rest) = some found) :
    ∃ entries entry, tree = .directory entries ∧ Entries.get? name entries = some entry ∧
      entry.at? rest = some found := by
  cases tree with
  | file content => cases held
  | link target => cases held
  | directory entries =>
      obtain ⟨entry, here, below⟩ := Option.bind_eq_some_iff.mp held
      exact ⟨entries, entry, rfl, here, below⟩

theorem at?_append (tree : FileTree) (front back : Place) :
    tree.at? (front ++ back) = (tree.at? front).bind fun found => found.at? back := by
  induction front generalizing tree with
  | nil => simp
  | cons name front ih =>
      cases tree with
      | file content => rfl
      | link target => rfl
      | directory entries =>
          rw [List.cons_append, at?_directory_cons, at?_directory_cons, Option.bind_assoc]
          exact congrArg _ (funext fun entry => ih entry)

theorem WellNamed.of_at? {tree found : FileTree} (wellNamed : tree.WellNamed) {place : Place}
    (held : tree.at? place = some found) : found.WellNamed := by
  induction place generalizing tree with
  | nil =>
      rw [at?_nil, Option.some.injEq] at held
      exact held ▸ wellNamed
  | cons name rest ih =>
      obtain ⟨entries, entry, rfl, here, below⟩ := exists_of_at?_cons held
      cases wellNamed with
      | directory distinct names entriesNamed =>
          exact ih (entriesNamed entry (List.mem_map_of_mem (Entries.mem_of_get? here))) below

theorem WellNamed.isName_of_at? {tree found : FileTree} (wellNamed : tree.WellNamed)
    {place : Place} (held : tree.at? place = some found) : ∀ name ∈ place, IsName name := by
  induction place generalizing tree with
  | nil => exact List.forall_mem_nil _
  | cons name rest ih =>
      obtain ⟨entries, entry, rfl, here, below⟩ := exists_of_at?_cons held
      cases wellNamed with
      | directory distinct names entriesNamed =>
          have entryNamed := entriesNamed entry (List.mem_map_of_mem (Entries.mem_of_get? here))
          rintro other (_ | ⟨_, member⟩)
          · exact names name (Entries.mem_keys_of_get? here)
          · exact ih entryNamed below other member

end Places

section Steps

variable {tree : FileTree} {links : Nat} {place : Place} {entries : List (String × FileTree)}
  {name : String}

theorem follow?_here (here : tree.at? place = some (.directory entries))
    (skipped : (name = "" || name = ".") = true) (rest : List String) :
    tree.follow? links place (name :: rest) = tree.follow? links place rest := by
  rw [follow?, here]
  simp only [skipped, if_true]

theorem follow?_above (here : tree.at? place = some (.directory entries)) (rest : List String) :
    tree.follow? links place (".." :: rest) = tree.follow? links place.dropLast rest := by
  rw [follow?, here]
  simp

theorem follow?_absent (here : tree.at? place = some (.directory entries))
    (named : ¬(name = "" || name = ".") = true) (notAbove : name ≠ "..")
    (absent : Entries.get? name entries = none) {rest : List String} (more : rest ≠ []) :
    tree.follow? links place (name :: rest) = none := by
  rw [follow?, here]
  simp only [named, notAbove, absent, more, Bool.false_eq_true, if_false]

theorem follow?_tooMany (here : tree.at? place = some (.directory entries))
    (named : ¬(name = "" || name = ".") = true) (notAbove : name ≠ "..") {target : String}
    (held : Entries.get? name entries = some (.link target)) (rest : List String) :
    tree.follow? 0 place (name :: rest) = none := by
  rw [follow?, here]
  simp only [named, notAbove, held, Bool.false_eq_true, if_false]

theorem follow?_link (here : tree.at? place = some (.directory entries))
    (named : ¬(name = "" || name = ".") = true) (notAbove : name ≠ "..") {target : String}
    (held : Entries.get? name entries = some (.link target)) (rest : List String) :
    tree.follow? (links + 1) place (name :: rest) =
      tree.follow? links (if Path.isAbsolute target then [] else place)
        (Path.names target ++ rest) := by
  rw [follow?, here]
  simp only [named, notAbove, held, Bool.false_eq_true, if_false]

theorem follow?_enter (here : tree.at? place = some (.directory entries))
    (named : ¬(name = "" || name = ".") = true) (notAbove : name ≠ "..") {entry : FileTree}
    (noLink : ∀ target, entry ≠ .link target) (held : Entries.get? name entries = some entry)
    (rest : List String) :
    tree.follow? links place (name :: rest) = tree.follow? links (place ++ [name]) rest := by
  rw [follow?, here]
  cases entry with
  | link target => exact absurd rfl (noLink target)
  | file content => simp only [named, notAbove, held, Bool.false_eq_true, if_false]
  | directory entries => simp only [named, notAbove, held, Bool.false_eq_true, if_false]

theorem follow?_outside (noDirectory : ∀ entries, tree.at? place ≠ some (.directory entries))
    (rest : List String) : tree.follow? links place (name :: rest) = none := by
  rw [follow?]
  split
  · rename_i entries here
    exact absurd here (noDirectory entries)
  · rfl

end Steps

section Names

variable {tree : FileTree} {links : Nat} {place : Place}

/-- Where names have led somewhere, further names are followed from there. -/
theorem follow?_append {front : List String} {reached : Place}
    (leads : tree.follow? links place front = some (.present reached)) :
    ∃ left, ∀ back, tree.follow? links place (front ++ back) = tree.follow? left reached back := by
  fun_induction follow? tree links place front with
  | case1 links place =>
      obtain rfl : place = reached := by simpa using leads
      exact ⟨links, fun back => rfl⟩
  | case2 links place name rest entries here skipped ih =>
      obtain ⟨left, further⟩ := ih leads
      exact ⟨left, fun back => (follow?_here here skipped _).trans (further back)⟩
  | case3 links place rest entries here named ih =>
      obtain ⟨left, further⟩ := ih leads
      exact ⟨left, fun back => (follow?_above here _).trans (further back)⟩
  | case4 | case5 | case6 | case9 => simp at leads
  | case7 place name rest entries here named notAbove target held links ih =>
      obtain ⟨left, further⟩ := ih leads
      refine ⟨left, fun back => ?_⟩
      rw [List.cons_append, follow?_link here named notAbove held, ← List.append_assoc]
      exact further back
  | case8 links place name rest entries here named notAbove entry noLink held ih =>
      obtain ⟨left, further⟩ := ih leads
      exact ⟨left,
        fun back => (follow?_enter here named notAbove noLink held _).trans (further back)⟩

/-- What is done with names does not depend on how those behind them are given, as long as there
are some. -/
theorem follow?_append_congr {first second : List String} (firstSome : first ≠ [])
    (secondSome : second ≠ [])
    (same : ∀ links place, tree.follow? links place first = tree.follow? links place second)
    (links : Nat) (place : Place) (front : List String) :
    tree.follow? links place (front ++ first) = tree.follow? links place (front ++ second) := by
  -- a name that is absent is the only one for which it matters whether names are left
  fun_induction follow? tree links place front with
  | case1 links place => exact same links place
  | case2 links place name rest entries here skipped ih =>
      simpa only [List.cons_append, follow?_here here skipped] using ih
  | case3 links place rest entries here named ih =>
      simpa only [List.cons_append, follow?_above here] using ih
  | case4 links place name entries here named notAbove absent =>
      rw [List.singleton_append, List.singleton_append,
        follow?_absent here named notAbove absent firstSome,
        follow?_absent here named notAbove absent secondSome]
  | case5 links place name rest entries here named notAbove absent more =>
      have further (back : List String) : rest ++ back ≠ [] := by simp [more]
      rw [List.cons_append, List.cons_append,
        follow?_absent here named notAbove absent (further first),
        follow?_absent here named notAbove absent (further second)]
  | case6 place name rest entries here named notAbove target held =>
      simp only [List.cons_append, follow?_tooMany here named notAbove held]
  | case7 place name rest entries here named notAbove target held links ih =>
      simpa only [List.cons_append, follow?_link here named notAbove held, List.append_assoc,
        dite_eq_ite] using ih
  | case8 links place name rest entries here named notAbove entry noLink held ih =>
      simpa only [List.cons_append, follow?_enter here named notAbove noLink held] using ih
  | case9 links place name rest noDirectory =>
      simp only [List.cons_append, follow?_outside noDirectory]

/-- An empty name makes no difference in front of another one. -/
theorem follow?_append_empty (front : List String) (name : String) (rest : List String) :
    tree.follow? links place (front ++ "" :: name :: rest) =
      tree.follow? links place (front ++ name :: rest) := by
  apply follow?_append_congr (by simp) (by simp)
  intro links place
  by_cases isDirectory : ∃ entries, tree.at? place = some (.directory entries)
  · obtain ⟨entries, here⟩ := isDirectory
    exact follow?_here here rfl _
  · have noDirectory := not_exists.mp isDirectory
    rw [follow?_outside noDirectory, follow?_outside noDirectory]

/-- Names that lead down to something without a link are followed to it. -/
theorem follow?_of_at? {names : List String} (areNames : ∀ name ∈ names, IsName name)
    {entry found : FileTree} (here : tree.at? place = some entry)
    (held : entry.at? names = some found) (noLink : ∀ target, found ≠ .link target) :
    tree.follow? links place names = some (.present (place ++ names)) := by
  induction names generalizing place entry with
  | nil => simp [follow?]
  | cons name rest ih =>
      obtain ⟨entries, next, rfl, nextHere, below⟩ := exists_of_at?_cons held
      have isName := areNames name (by simp)
      have nextAt : tree.at? (place ++ [name]) = some next := by
        rw [at?_append, here, Option.bind_some, at?_directory_cons, nextHere, Option.bind_some,
          at?_nil]
      have nextNoLink (target : String) : next ≠ .link target := by
        rintro rfl
        cases rest with
        | nil => exact noLink target (Option.some.inj (below.symm.trans (at?_nil _)))
        | cons name rest => cases below
      rw [follow?_enter here (by simp [isName.notEmpty, isName.notHere]) isName.notAbove nextNoLink
          nextHere, ih (fun other member => areNames other (by simp [member])) nextAt below,
        List.append_assoc, List.singleton_append]

theorem lookupFrom?_eq_some_iff {names : List String} {found : Place} {entry : FileTree} :
    tree.lookupFrom? place names = some (found, entry) ↔
      tree.follow? linkLimit place names = some (.present found) ∧ tree.at? found = some entry := by
  rw [lookupFrom?]
  split
  · rename_i reached follows
    simp only [follows, Option.map_eq_some_iff, Prod.mk.injEq, Option.some.injEq,
      Destination.present.injEq]
    exact ⟨fun ⟨_, held, same, entrySame⟩ => ⟨same, same ▸ entrySame ▸ held⟩,
      fun ⟨same, held⟩ => ⟨entry, same ▸ held, same, rfl⟩⟩
  · rename_i noPlace
    exact iff_of_false (by simp) fun found => noPlace _ found.1

theorem lookup?_eq_some_iff {path : String} {found : Place} {entry : FileTree} :
    tree.lookup? path = some (found, entry) ↔ path ≠ "" ∧
      tree.lookupFrom? [] (Path.names path) = some (found, entry) := by
  by_cases empty : path = "" <;> simp [lookup?, empty]

theorem at?_of_lookup? {path : String} {found : Place} {entry : FileTree}
    (leads : tree.lookup? path = some (found, entry)) : tree.at? found = some entry :=
  (lookupFrom?_eq_some_iff.mp (lookup?_eq_some_iff.mp leads).2).2

/-- The text of a path below another leads to where the names of both lead. -/
theorem lookup?_joinNames (tree : FileTree) {root : String} (rootNamed : root ≠ "")
    {path : List String} (areNames : ∀ name ∈ path, IsName name) :
    tree.lookup? (Path.joinNames root path) = tree.lookupFrom? [] (Path.names root ++ path) := by
  obtain ⟨front, rootNames, joined⟩ := Path.names_joinNames root areNames
  cases path with
  | nil => rw [Path.joinNames_nil, lookup?, if_neg rootNamed, List.append_nil]
  | cons name rest =>
      rw [lookup?, if_neg (Path.joinNames_ne_empty rootNamed areNames), joined]
      obtain plain | trailing := rootNames
      · rw [plain]
      · rw [trailing, List.append_assoc, List.singleton_append, lookupFrom?, lookupFrom?,
          follow?_append_empty]

end Names

end FileTree

end ApiAssembly.Project
