/-!
# Ordered entries

A dictionary that keeps its keys in the order in which they first came.  Putting
a value under a present key replaces the value where it stands.  The statements
describe every operation by the keys in order and by the value of each key.
-/

namespace ApiAssembly

/-- Values under text keys, in order. -/
abbrev Entries (α : Type) := List (String × α)

namespace Entries

variable {α β : Type}

def keys (entries : Entries α) : List String :=
  entries.map Prod.fst

def values (entries : Entries α) : List α :=
  entries.map Prod.snd

def get? (key : String) : Entries α → Option α
  | [] => none
  | (present, value) :: rest => if present = key then some value else get? key rest

def contains (key : String) (entries : Entries α) : Bool :=
  (get? key entries).isSome

/-- Store a value: in the place of a present key, and at the end otherwise. -/
def put (key : String) (value : α) : Entries α → Entries α
  | [] => [(key, value)]
  | (present, old) :: rest =>
    if present = key then (present, value) :: rest else (present, old) :: put key value rest

/-- Change the value under a key, if it is present. -/
def update (key : String) (change : α → α) : Entries α → Entries α
  | [] => []
  | (present, value) :: rest =>
    if present = key then (present, change value) :: rest
    else (present, value) :: update key change rest

/-- Store pairs from left to right. -/
def ofPairs (pairs : List (String × α)) : Entries α :=
  pairs.foldl (fun entries pair => put pair.1 pair.2 entries) []

@[simp] theorem keys_nil : keys ([] : Entries α) = [] := rfl

@[simp] theorem keys_cons (pair : String × α) (rest : Entries α) :
    keys (pair :: rest) = pair.1 :: keys rest := rfl

@[simp] theorem keys_append (front back : Entries α) :
    keys (front ++ back) = keys front ++ keys back := by
  simp [keys]

@[simp] theorem get?_nil (key : String) : get? key ([] : Entries α) = none := rfl

@[simp] theorem get?_put_self (key : String) (value : α) (entries : Entries α) :
    get? key (put key value entries) = some value := by
  induction entries with
  | nil => simp [put, get?]
  | cons pair rest ih => by_cases h : pair.1 = key <;> simp [put, get?, h, ih]

theorem get?_put_of_ne {key other : String} (different : key ≠ other) (value : α)
    (entries : Entries α) : get? other (put key value entries) = get? other entries := by
  induction entries with
  | nil => simp [put, get?, different]
  | cons pair rest ih =>
    by_cases h : pair.1 = key
    · have h' : pair.1 ≠ other := fun same => different (h.symm.trans same)
      simp [put, get?, h, different]
    · simp [put, get?, h, ih]

theorem get?_eq_none_iff {key : String} {entries : Entries α} :
    get? key entries = none ↔ key ∉ keys entries := by
  induction entries with
  | nil => simp
  | cons pair rest ih =>
    by_cases h : pair.1 = key
    · simp [get?, h]
    · simp [get?, h, ih, Ne.symm h]

theorem contains_iff {key : String} {entries : Entries α} :
    contains key entries = true ↔ key ∈ keys entries := by
  by_cases member : key ∈ keys entries
  · have found := mt get?_eq_none_iff.mp (not_not_intro member)
    simp [contains, member, Option.isSome_iff_ne_none, found]
  · simp [contains, member, get?_eq_none_iff.mpr member]

theorem keys_put (key : String) (value : α) (entries : Entries α) :
    keys (put key value entries) =
      if key ∈ keys entries then keys entries else keys entries ++ [key] := by
  induction entries with
  | nil => simp [put]
  | cons pair rest ih =>
    by_cases h : pair.1 = key
    · simp [put, h]
    · by_cases member : key ∈ keys rest <;> simp [put, h, ih, member, Ne.symm h]

@[simp] theorem keys_update (key : String) (change : α → α) (entries : Entries α) :
    keys (update key change entries) = keys entries := by
  induction entries with
  | nil => rfl
  | cons pair rest ih => by_cases h : pair.1 = key <;> simp [update, h, ih]

theorem get?_update (key other : String) (change : α → α) (entries : Entries α) :
    get? other (update key change entries) =
      if key = other then (get? other entries).map change else get? other entries := by
  induction entries with
  | nil => simp [update]
  | cons pair rest ih =>
    by_cases here : pair.1 = key
    · by_cases same : key = other
      · simp [update, get?, here, same]
      · simp [update, get?, here, same]
    · by_cases there : pair.1 = other
      · have different : key ≠ other := fun same => here (there.trans same.symm)
        simp [update, get?, there, different, Ne.symm different]
      · simp [update, get?, here, there, ih]

theorem get?_append_of_not_mem {key : String} {front : Entries α} (absent : key ∉ keys front)
    (back : Entries α) : get? key (front ++ back) = get? key back := by
  induction front with
  | nil => rfl
  | cons pair front ih =>
    rw [keys_cons, List.mem_cons, not_or] at absent
    simp [get?, Ne.symm absent.1, ih absent.2]

theorem update_append_of_not_mem {key : String} {front : Entries α}
    (absent : key ∉ keys front) (change : α → α) (back : Entries α) :
    update key change (front ++ back) = front ++ update key change back := by
  induction front with
  | nil => rfl
  | cons pair front ih =>
    rw [keys_cons, List.mem_cons, not_or] at absent
    simp [update, Ne.symm absent.1, ih absent.2]

/-- A change that leaves the value under a key as it is changes nothing. -/
theorem update_eq_self {key : String} {change : α → α} {entries : Entries α}
    (unchanged : ∀ value, get? key entries = some value → change value = value) :
    update key change entries = entries := by
  induction entries with
  | nil => rfl
  | cons pair rest ih =>
    obtain ⟨present, old⟩ := pair
    by_cases here : present = key
    · rw [update, if_pos here, unchanged old (by simp [get?, here])]
    · have later : update key change rest = rest := by
        apply ih
        intro value found
        exact unchanged value (by simpa [get?, here] using found)
      simp [update, here, later]

theorem put_of_not_mem {key : String} {entries : Entries α} (absent : key ∉ keys entries)
    (value : α) : put key value entries = entries ++ [(key, value)] := by
  induction entries with
  | nil => rfl
  | cons pair rest ih =>
    rw [keys_cons, List.mem_cons, not_or] at absent
    simp [put, Ne.symm absent.1, ih absent.2]

/-- The place of a value: the entries in front of it lack its key. -/
theorem exists_split_of_get? {key : String} {entries : Entries α} {value : α}
    (found : get? key entries = some value) :
    ∃ front back, entries = front ++ (key, value) :: back ∧ key ∉ keys front := by
  induction entries with
  | nil => simp at found
  | cons pair rest ih =>
    by_cases here : pair.1 = key
    · rw [get?, if_pos here, Option.some.injEq] at found
      exact ⟨[], rest, by simp [← here, ← found], by simp⟩
    · rw [get?, if_neg here] at found
      obtain ⟨front, back, rfl, absent⟩ := ih found
      exact ⟨pair :: front, back, rfl, by simp [Ne.symm here, absent]⟩

end Entries

end ApiAssembly
