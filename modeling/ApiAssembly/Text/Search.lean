/-!
# Beginnings and endings

A text that begins or ends with another text, and what is left without it.  The
statements say that the parts put together are the whole.
-/

namespace ApiAssembly.Text

/-- What follows a beginning, if the text begins so. -/
def after? : List Char → List Char → Option (List Char)
  | [], text => some text
  | _ :: _, [] => none
  | expected :: start, c :: text => if expected = c then after? start text else none

/-- What precedes an ending, if the text ends so. -/
def before? (ending text : List Char) : Option (List Char) :=
  (after? ending.reverse text.reverse).map List.reverse

def startsWith (start text : List Char) : Bool :=
  (after? start text).isSome

/-- What stands before and behind the first place where a mark stands. -/
def find? (mark : List Char) : List Char → Option (List Char × List Char)
  | [] => (after? mark []).map fun behind => ([], behind)
  | c :: rest =>
    match after? mark (c :: rest) with
    | some behind => some ([], behind)
    | none => (find? mark rest).map fun (front, behind) => (c :: front, behind)

/-- The text cut at the last place where a character stands, which is in neither part. -/
def splitLast (mark : Char) (text : List Char) : Option (List Char × List Char) :=
  match text.reverse.span (· != mark) with
  | (_, []) => none
  | (behind, _ :: front) => some (front.reverse, behind.reverse)

/-- The text cut at the first place where a character stands, which is in neither part. -/
def splitFirst (mark : Char) (text : List Char) : Option (List Char × List Char) :=
  match text.span (· != mark) with
  | (_, []) => none
  | (front, _ :: behind) => some (front, behind)

@[simp] theorem after?_nil (text : List Char) : after? [] text = some text := rfl

theorem after?_eq_some_iff {start text rest : List Char} :
    after? start text = some rest ↔ text = start ++ rest := by
  induction start generalizing text with
  | nil => simp [eq_comm]
  | cons expected start ih =>
    cases text with
    | nil => simp [after?]
    | cons c text =>
      by_cases same : expected = c
      · simp [after?, same, ih]
      · simp [after?, same, Ne.symm same]

theorem before?_eq_some_iff {ending text rest : List Char} :
    before? ending text = some rest ↔ text = rest ++ ending := by
  simp only [before?, Option.map_eq_some_iff, after?_eq_some_iff]
  constructor
  · rintro ⟨turned, whole, rfl⟩
    simpa using congrArg List.reverse whole
  · rintro rfl
    exact ⟨rest.reverse, by simp, by simp⟩

theorem eq_of_find? {mark text front behind : List Char}
    (found : find? mark text = some (front, behind)) : text = front ++ mark ++ behind := by
  induction text generalizing front with
  | nil =>
    obtain ⟨rest, whole, same⟩ := Option.map_eq_some_iff.mp found
    cases same
    simpa using after?_eq_some_iff.mp whole
  | cons c text ih =>
    unfold find? at found
    split at found
    · rename_i whole
      cases found
      simpa using after?_eq_some_iff.mp whole
    · obtain ⟨⟨start, rest⟩, inner, same⟩ := Option.map_eq_some_iff.mp found
      cases same
      simp [ih inner]

end ApiAssembly.Text
