import ApiAssembly.Entries
import Mathlib.Data.List.Induction
import Mathlib.Data.List.Perm.Subperm

/-!
# Entries with distinct keys

Entries whose keys are distinct are known from their keys in order and from the value
of each key.  Putting values keeps keys distinct, entries can be read off a list of
names with a value for each, and entries can be laid over others.  Of pairs that are put one
after the other, the last one of a key is found.
-/

namespace ApiAssembly.Entries

variable {α β : Type}

theorem mem_of_get? {key : String} {entries : Entries α} {value : α}
    (found : get? key entries = some value) : (key, value) ∈ entries := by
  obtain ⟨front, back, rfl, -⟩ := exists_split_of_get? found
  simp

theorem get?_of_mem {key : String} {entries : Entries α} {value : α}
    (distinct : (keys entries).Nodup) (member : (key, value) ∈ entries) :
    get? key entries = some value := by
  induction entries with
  | nil => simp at member
  | cons pair rest ih =>
      rw [keys_cons, List.nodup_cons] at distinct
      rcases List.mem_cons.mp member with rfl | later
      · simp [get?]
      · have inRest : key ∈ keys rest := List.mem_map.mpr ⟨(key, value), later, rfl⟩
        have different : pair.1 ≠ key := fun same => distinct.1 (same ▸ inRest)
        rw [get?, if_neg different]
        exact ih distinct.2 later

theorem exists_get?_of_mem_keys {key : String} {entries : Entries α}
    (member : key ∈ keys entries) : ∃ value, get? key entries = some value := by
  apply Option.ne_none_iff_exists'.mp
  rw [ne_eq, get?_eq_none_iff]
  exact not_not_intro member

theorem mem_keys_of_get? {key : String} {entries : Entries α} {value : α}
    (found : get? key entries = some value) : key ∈ keys entries :=
  List.mem_map.mpr ⟨(key, value), mem_of_get? found, rfl⟩

/-- Entries with distinct keys are determined by their keys and values. -/
theorem ext_of_nodup {left right : Entries α} (sameKeys : keys left = keys right)
    (distinct : (keys left).Nodup)
    (sameValues : ∀ key ∈ keys left, get? key left = get? key right) : left = right := by
  induction left generalizing right with
  | nil =>
      cases right with
      | nil => rfl
      | cons pair rest => simp at sameKeys
  | cons pair rest ih =>
      obtain ⟨key, value⟩ := pair
      cases right with
      | nil => simp at sameKeys
      | cons other others =>
          obtain ⟨otherKey, otherValue⟩ := other
          simp only [keys_cons, List.cons.injEq] at sameKeys
          obtain ⟨rfl, sameRest⟩ := sameKeys
          rw [keys_cons, List.nodup_cons] at distinct
          have sameFirst : value = otherValue := by
            simpa [get?] using sameValues key (by simp)
          have later : rest = others := by
            apply ih sameRest distinct.2
            intro name member
            have different : key ≠ name := fun same => distinct.1 (same ▸ member)
            simpa [get?, different] using sameValues name (by simp [member])
          rw [sameFirst, later]

theorem eq_or_mem_of_mem_values_put {key : String} {value other : α} {entries : Entries α}
    (member : other ∈ values (put key value entries)) : other = value ∨ other ∈ values entries := by
  induction entries with
  | nil => exact .inl (List.mem_singleton.mp member)
  | cons pair rest ih =>
      rw [put] at member
      split at member
      · exact (List.mem_cons.mp member).imp_right fun later => List.mem_cons_of_mem _ later
      · rcases List.mem_cons.mp member with rfl | later
        · exact .inr List.mem_cons_self
        · exact (ih later).imp_right fun inRest => List.mem_cons_of_mem _ inRest

theorem eq_or_mem_of_mem_values_update {key : String} {new other : α} {entries : Entries α}
    (member : other ∈ values (update key (fun _ => new) entries)) :
    other = new ∨ other ∈ values entries := by
  induction entries with
  | nil => cases member
  | cons pair rest ih =>
      rw [update] at member
      split at member
      · exact (List.mem_cons.mp member).imp_right fun later => List.mem_cons_of_mem _ later
      · rcases List.mem_cons.mp member with rfl | later
        · exact .inr List.mem_cons_self
        · exact (ih later).imp_right fun inRest => List.mem_cons_of_mem _ inRest

theorem nodup_keys_put {key : String} {entries : Entries α} (distinct : (keys entries).Nodup)
    (value : α) : (keys (put key value entries)).Nodup := by
  rw [keys_put]
  split
  · exact distinct
  · rename_i absent
    rw [List.nodup_append]
    refine ⟨distinct, by simp, ?_⟩
    intro name member other single
    rw [List.mem_singleton.mp single]
    exact fun same => absent (same ▸ member)

theorem nodup_keys_concat {entries : Entries α} (distinct : (keys entries).Nodup)
    {key : String} (absent : key ∉ keys entries) (value : α) :
    (keys (entries ++ [(key, value)])).Nodup := by
  rw [← put_of_not_mem absent]
  exact nodup_keys_put distinct value

theorem get?_put (key other : String) (value : α) (entries : Entries α) :
    get? other (put key value entries) =
      if key = other then some value else get? other entries := by
  split
  · rename_i same
    rw [same, get?_put_self]
  · rename_i different
    exact get?_put_of_ne different value entries

theorem put_append_of_not_mem {key : String} {front : Entries α}
    (absent : key ∉ keys front) (value : α) (back : Entries α) :
    put key value (front ++ back) = front ++ put key value back := by
  induction front with
  | nil => rfl
  | cons member front ih =>
      rw [keys_cons, List.mem_cons, not_or] at absent
      rw [List.cons_append, put, if_neg (Ne.symm absent.1), ih absent.2]
      rfl

/-- Entries for the names that have a value, in the order of the names. -/
def tabulate (names : List String) (value? : String → Option α) : Entries α :=
  names.filterMap fun name => (value? name).map fun value => (name, value)

theorem keys_tabulate {names : List String} {value? : String → Option α}
    (total : ∀ name ∈ names, (value? name).isSome = true) :
    keys (tabulate names value?) = names := by
  induction names with
  | nil => rfl
  | cons name names ih =>
      obtain ⟨value, found⟩ := Option.isSome_iff_exists.mp (total name (by simp))
      have later := ih fun other member => total other (by simp [member])
      rw [tabulate] at later
      simp [tabulate, found, later]

theorem get?_tabulate {names : List String} {value? : String → Option α} {name : String}
    (member : name ∈ names) : get? name (tabulate names value?) = value? name := by
  induction names with
  | nil => simp at member
  | cons first names ih =>
      by_cases same : first = name
      · subst same
        cases found : value? first with
        | some value => simp [tabulate, found, get?]
        | none =>
            have absent : first ∉ keys (tabulate names value?) := by
              simp [tabulate, keys, found]
            simpa [tabulate, found] using get?_eq_none_iff.mpr absent
      · have later := ih ((List.mem_cons.mp member).resolve_left (Ne.symm same))
        rw [tabulate] at later
        cases found : value? first with
        | some value => simp [tabulate, found, get?, same, later]
        | none => simp [tabulate, found, later]

theorem get?_append_cons {key : String} {front : Entries α} (absent : key ∉ keys front)
    (other : String) (value : α) (back : Entries α) :
    get? other (front ++ (key, value) :: back) =
      if key = other then some value else get? other (front ++ back) := by
  induction front with
  | nil => rfl
  | cons pair front ih =>
      rw [keys_cons, List.mem_cons, not_or] at absent
      rw [List.cons_append, get?, ih absent.2, List.cons_append, get?]
      by_cases here : pair.1 = other
      · have different : key ≠ other := fun same => absent.1 (same.trans here.symm)
        rw [if_pos here, if_pos here, if_neg different]
      · rw [if_neg here, if_neg here]

/-- Entries laid over others: a key that both have keeps its place and changes its value,
and the other keys come at the end. -/
def overlay (lower upper : Entries α) : Entries α :=
  lower.map (fun pair => (pair.1, (get? pair.1 upper).getD pair.2)) ++
    upper.filter fun pair => pair.1 ∉ keys lower

@[simp] theorem overlay_nil (lower : Entries α) : overlay lower [] = lower := by
  simp [overlay]

theorem keys_overlay (lower upper : Entries α) :
    keys (overlay lower upper) =
      keys lower ++ (keys upper).filter fun key => key ∉ keys lower := by
  rw [overlay, keys_append]
  congr 1
  · simp [keys]
  · simp only [keys, List.filter_map]
    rfl

theorem get?_map_values (change : String → α → α) (entries : Entries α) (key : String) :
    get? key (entries.map fun pair => (pair.1, change pair.1 pair.2)) =
      (get? key entries).map (change key) := by
  induction entries with
  | nil => rfl
  | cons pair rest ih =>
      by_cases here : pair.1 = key
      · simp [get?, here]
      · simp [get?, here, ih]

theorem get?_filter (keep : String → Bool) (entries : Entries α) (key : String) :
    get? key (entries.filter fun pair => keep pair.1) =
      if keep key then get? key entries else none := by
  induction entries with
  | nil => simp
  | cons pair rest ih =>
      by_cases here : pair.1 = key
      · subst here
        cases kept : keep pair.1 <;> simp [kept, get?, ih]
      · cases kept : keep pair.1 <;> simp [kept, get?, here, ih]

theorem get?_append (key : String) (front back : Entries α) :
    get? key (front ++ back) = (get? key front).or (get? key back) := by
  cases found : get? key front with
  | none => exact get?_append_of_not_mem (get?_eq_none_iff.mp found) back
  | some value =>
      obtain ⟨before, after, rfl, absent⟩ := exists_split_of_get? found
      rw [List.append_assoc, List.cons_append, get?_append_cons absent, if_pos rfl]
      rfl

/-- Under each key, entries laid over others have the value that lies on top. -/
theorem get?_overlay (lower upper : Entries α) (key : String) :
    get? key (overlay lower upper) = (get? key upper).or (get? key lower) := by
  rw [overlay, get?_append, get?_map_values (fun name => (get? name upper).getD),
    get?_filter (fun name => name ∉ keys lower)]
  cases below : get? key lower with
  | none => simp [get?_eq_none_iff.mp below]
  | some value => cases above : get? key upper <;> simp

theorem nodup_keys_overlay {lower upper : Entries α} (lowerDistinct : (keys lower).Nodup)
    (upperDistinct : (keys upper).Nodup) : (keys (overlay lower upper)).Nodup := by
  rw [keys_overlay, List.nodup_append]
  refine ⟨lowerDistinct, upperDistinct.filter _, ?_⟩
  rintro name member other new rfl
  simp [member] at new

/-- Laying one more entry on top is putting its value. -/
theorem overlay_concat {lower upper : Entries α} (lowerDistinct : (keys lower).Nodup)
    (upperDistinct : (keys upper).Nodup) {key : String} (absent : key ∉ keys upper) (value : α) :
    overlay lower (upper ++ [(key, value)]) = put key value (overlay lower upper) := by
  apply ext_of_nodup
  · rw [keys_put, keys_overlay, keys_overlay, keys_append, List.filter_append]
    by_cases below : key ∈ keys lower <;> simp [below, absent]
  · exact nodup_keys_overlay lowerDistinct (nodup_keys_concat upperDistinct absent value)
  · intro name _
    rw [get?_put, get?_overlay, get?_overlay, get?_append_cons absent, List.append_nil]
    by_cases same : key = name <;> simp [same]

/-- Changing a value on top is changing the value under its key. -/
theorem update_overlay {lower front back : Entries α} (lowerDistinct : (keys lower).Nodup)
    {key : String} {old : α} (upperDistinct : (keys (front ++ (key, old) :: back)).Nodup)
    (new : α) :
    update key (fun _ => new) (overlay lower (front ++ (key, old) :: back)) =
      overlay lower (front ++ (key, new) :: back) := by
  have absent : key ∉ keys front := by
    rw [keys_append, keys_cons, List.nodup_append] at upperDistinct
    exact fun member => upperDistinct.2.2 key member key (by simp) rfl
  apply ext_of_nodup
  · simp [keys_overlay]
  · rw [keys_update]
    exact nodup_keys_overlay lowerDistinct upperDistinct
  · intro name _
    rw [get?_update, get?_overlay, get?_overlay, get?_append_cons absent, get?_append_cons absent]
    by_cases same : key = name <;> simp [same]

/-- Store pairs from left to right into entries that are there. -/
def putAll (pairs : List (String × α)) (entries : Entries α) : Entries α :=
  pairs.foldl (fun present pair => put pair.1 pair.2 present) entries

theorem putAll_append (first second : List (String × α)) (entries : Entries α) :
    putAll (first ++ second) entries = putAll second (putAll first entries) :=
  List.foldl_append

theorem nodup_keys_putAll {entries : Entries α} (distinct : (keys entries).Nodup)
    (pairs : List (String × α)) : (keys (putAll pairs entries)).Nodup := by
  induction pairs generalizing entries with
  | nil => exact distinct
  | cons pair pairs ih => exact ih (nodup_keys_put distinct pair.2)

/-- Under each key the pair that was stored last is found. -/
theorem get?_putAll (key : String) (pairs : List (String × α)) (entries : Entries α) :
    get? key (putAll pairs entries) = (get? key pairs.reverse).or (get? key entries) := by
  induction pairs generalizing entries with
  | nil => rfl
  | cons pair pairs ih =>
      have stored : putAll (pair :: pairs) entries = putAll pairs (put pair.1 pair.2 entries) := rfl
      rw [stored, ih, List.reverse_cons, get?_append, Option.or_assoc, get?_put]
      by_cases same : pair.1 = key <;> simp [get?, same]

/-- Pairs without a common key can be stored in either order. -/
theorem get?_putAll_comm {first second : List (String × α)}
    (apart : ∀ key ∈ keys first, key ∉ keys second) (front back : List (String × α))
    (key : String) :
    get? key (putAll (front ++ (first ++ (second ++ back))) []) =
      get? key (putAll (front ++ (second ++ (first ++ back))) []) := by
  have exchange : (get? key second.reverse).or (get? key first.reverse) =
      (get? key first.reverse).or (get? key second.reverse) := by
    by_cases inFirst : key ∈ keys first
    · have absent : key ∉ keys second.reverse := by simpa [keys] using apart key inFirst
      rw [get?_eq_none_iff.mpr absent, Option.none_or, Option.or_none]
    · have absent : key ∉ keys first.reverse := by simpa [keys] using inFirst
      rw [get?_eq_none_iff.mpr absent, Option.none_or, Option.or_none]
  simp only [get?_putAll, List.reverse_append, get?_append, get?_nil, Option.or_none,
    Option.or_assoc]
  rw [← @Option.or_assoc _ (get? key second.reverse), exchange, Option.or_assoc]

theorem foldl_put_of_nodup {pairs : List (String × α)} {before : Entries α}
    (distinct : (keys (before ++ pairs)).Nodup) :
    pairs.foldl (fun entries pair => put pair.1 pair.2 entries) before = before ++ pairs := by
  induction pairs generalizing before with
  | nil => simp
  | cons pair pairs ih =>
      have absent : pair.1 ∉ keys before := by
        rw [keys_append, keys_cons] at distinct
        exact fun member =>
          (List.nodup_append.mp distinct).2.2 _ member _ List.mem_cons_self rfl
      rw [List.foldl_cons, put_of_not_mem absent, ih (by simpa using distinct)]
      simp

/-- Pairs of distinct keys are stored as they come. -/
theorem ofPairs_of_nodup {pairs : List (String × α)} (distinct : (keys pairs).Nodup) :
    ofPairs pairs = pairs :=
  foldl_put_of_nodup distinct

theorem ofPairs_concat (pairs : List (String × α)) (pair : String × α) :
    ofPairs (pairs ++ [pair]) = put pair.1 pair.2 (ofPairs pairs) := by
  rw [ofPairs, List.foldl_append]
  rfl

/-- Stored pairs have their keys in the order in which these came first. -/
theorem keys_ofPairs (pairs : List (String × α)) :
    keys (ofPairs pairs) = (keys pairs).eraseDups := by
  induction pairs using List.reverseRecOn with
  | nil => rfl
  | append_singleton pairs pair ih =>
      rw [ofPairs_concat, keys_put, ih, keys_append, List.eraseDups_append, keys_cons, keys_nil]
      by_cases present : pair.1 ∈ keys pairs
      · simp [List.removeAll, present]
      · simp [List.removeAll, present, List.eraseDups_cons]

/-- Under each key the last one of its values is stored. -/
theorem get?_ofPairs {key : String} {value : α} {back : List (String × α)}
    (last : key ∉ keys back) (front : List (String × α)) :
    get? key (ofPairs (front ++ (key, value) :: back)) = some value := by
  have absent : get? key back.reverse = none := by
    rw [get?_eq_none_iff]
    simpa [keys] using last
  have found := get?_putAll key (front ++ (key, value) :: back) []
  rw [List.reverse_append, List.reverse_cons, List.append_assoc, get?_append, absent] at found
  rw [ofPairs, ← putAll, found]
  simp [get?]

/-- As many pairs are stored as there are different keys. -/
theorem length_ofPairs_eq_iff {pairs : List (String × α)} :
    (ofPairs pairs).length = pairs.length ↔ (keys pairs).Nodup := by
  constructor
  · intro same
    have lengths : (keys pairs).eraseDups.length = (keys pairs).length := by
      rw [← keys_ofPairs, keys, keys, List.length_map, List.length_map, same]
    have first : (keys (ofPairs pairs)).Nodup := nodup_keys_putAll (by simp) pairs
    rw [keys_ofPairs] at first
    have part : (keys pairs).eraseDups.Subperm (keys pairs) :=
      List.subperm_of_subset first fun _ member => List.mem_eraseDups.mp member
    exact (part.perm_of_length_le (Nat.le_of_eq lengths.symm)).nodup_iff.mp first
  · intro distinct
    rw [ofPairs_of_nodup distinct]

/-- Of two changes of one value, one after the other is one change. -/
theorem update_update (key : String) (first second : α → α) (entries : Entries α) :
    update key second (update key first entries) =
      update key (fun value => second (first value)) entries := by
  induction entries with
  | nil => rfl
  | cons entry entries ih => by_cases here : entry.1 = key <;> simp [update, here, ih]

/-- Changes of values under two keys can be made in either order. -/
theorem update_comm {key other : String} (different : other ≠ key) (first second : α → α)
    (entries : Entries α) :
    update key second (update other first entries) =
      update other first (update key second entries) := by
  induction entries with
  | nil => rfl
  | cons entry entries ih =>
      by_cases here : entry.1 = key
      · simp [update, here, Ne.symm different]
      · by_cases there : entry.1 = other <;> simp [update, here, there, different, ih]

/-- What is put under a key replaces what was changed there. -/
theorem put_update (key : String) (change : α → α) (value : α) (entries : Entries α) :
    put key value (update key change entries) = put key value entries := by
  induction entries with
  | nil => rfl
  | cons entry entries ih => by_cases here : entry.1 = key <;> simp [update, put, here, ih]

/-- What is put under a key has nothing to do with what is changed under another one. -/
theorem put_update_of_ne {key other : String} (different : other ≠ key) {entries : Entries α}
    (change : α → α) (value : α) :
    put key value (update other change entries) = update other change (put key value entries) := by
  induction entries with
  | nil => simp [update, put, Ne.symm different]
  | cons entry entries ih =>
      by_cases here : entry.1 = key
      · simp [update, put, here, Ne.symm different]
      · by_cases there : entry.1 = other <;> simp [update, put, here, there, different, ih]

theorem forall_mem_put {holds : α → Prop} {key : String} {value : α} {entries : Entries α}
    (each : ∀ entry ∈ entries, holds entry.2) (own : holds value) :
    ∀ entry ∈ put key value entries, holds entry.2 := by
  intro entry member
  rcases eq_or_mem_of_mem_values_put (List.mem_map_of_mem member) with same | old
  · rwa [same]
  · obtain ⟨before, inEntries, same⟩ := List.mem_map.mp old
    exact same ▸ each before inEntries

theorem forall_mem_ofPairs {holds : α → Prop} {pairs : List (String × α)}
    (each : ∀ pair ∈ pairs, holds pair.2) : ∀ entry ∈ ofPairs pairs, holds entry.2 := by
  suffices kept : ∀ entries : Entries α, (∀ entry ∈ entries, holds entry.2) →
      ∀ entry ∈ pairs.foldl (fun entries pair => put pair.1 pair.2 entries) entries,
        holds entry.2 from kept [] (by simp)
  induction pairs with
  | nil => exact fun entries own => own
  | cons pair pairs ih =>
      rw [List.forall_mem_cons] at each
      exact fun entries own => ih each.2 _ (forall_mem_put own each.1)

theorem forall_mem_update {holds : α → Prop} {key : String} {change : α → α} {entries : Entries α}
    (each : ∀ entry ∈ entries, holds entry.2) (kept : ∀ value, holds value → holds (change value)) :
    ∀ entry ∈ update key change entries, holds entry.2 := by
  induction entries with
  | nil => simp [update]
  | cons entry entries ih =>
      rw [List.forall_mem_cons] at each
      rw [update]
      split
      · exact List.forall_mem_cons.mpr ⟨kept _ each.1, each.2⟩
      · exact List.forall_mem_cons.mpr ⟨each.1, ih each.2⟩

end ApiAssembly.Entries
