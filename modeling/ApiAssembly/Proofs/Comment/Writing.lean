import ApiAssembly.Proofs.Comment.Extraction
import ApiAssembly.Proofs.Comment.Group
import ApiAssembly.Proofs.Text.Line

/-!
# Writing comments

A comment is written line by line: the lines of its description, and for each tag the line
with its sign followed by the lines of its description that do not stand beside its name.
The main statement says that these lines are what is left of the written text when the
marks, the stars and the indentation in front of the stars are taken away.
-/

namespace ApiAssembly.Comment

open Text (isBlank Unindented Unpadded)

/-- The lines of a description.  An empty description has none. -/
def descriptionLines (description : String) : List (List Char) :=
  if description = "" then [] else description.toList.splitOn '\n'

/-- A part of a line with a blank in front; an absent part leaves no trace. -/
def spaced : List Char → List Char
  | [] => []
  | c :: part => ' ' :: c :: part

def typePart (tag : Tag) : List Char :=
  if tag.typeText = "" then [] else '{' :: tag.typeText.toList ++ ['}']

/-- The name of an optional tag with its default. -/
def nameAndDefault (tag : Tag) : List Char :=
  tag.name.toList ++
    match tag.defaultText with
    | some text => '=' :: text.toList
    | none => []

def namePart (tag : Tag) : List Char :=
  if tag.optional then '[' :: nameAndDefault tag ++ [']'] else tag.name.toList

/-- The line of the description that stands beside the name, if there is a name. -/
def besideName (tag : Tag) : List Char :=
  if tag.name = "" then [] else (descriptionLines tag.description).headD []

def belowName (tag : Tag) : List (List Char) :=
  if tag.name = "" then descriptionLines tag.description
  else (descriptionLines tag.description).tail

/-- The line of a tag behind the sign `@`. -/
def tagText (tag : Tag) : List Char :=
  tag.title.toList ++ (spaced (typePart tag) ++ (spaced (namePart tag) ++ spaced (besideName tag)))

def tagLines (tag : Tag) : List (List Char) :=
  ('@' :: tagText tag) :: belowName tag

def commentLines (description : String) (tags : List Tag) : List (List Char) :=
  descriptionLines description ++ tags.flatMap tagLines

/-- A line behind the star in front of it. -/
def starred (line : List Char) : List Char :=
  ' ' :: '*' :: ' ' :: line

def writeLines (lines : List (List Char)) : List Char :=
  lines.flatMap fun line => starred line ++ ['\n']

/-- The text of a comment with a description and tags. -/
def write (description : String) (tags : List Tag) : List Char :=
  ['/', '*', '*'] ++ ('\n' :: writeLines (commentLines description tags) ++ [' ']) ++ ['*', '/']

/-- Behind its indentation the line begins as the line of a tag does. -/
def StartsTag (line : List Char) : Prop :=
  (Text.trimStart line).head? = some '@'

instance : DecidablePred StartsTag :=
  fun line => inferInstanceAs (Decidable ((Text.trimStart line).head? = some '@'))

/-- Lines without blanks at their ends, of which the first and the last are not empty. -/
structure Tidy (lines : List (List Char)) : Prop where
  unpadded : ∀ line ∈ lines, Unpadded line
  first : lines.head? ≠ some []
  last : lines.getLast? ≠ some []

/-- A name that can be written without brackets. -/
structure PlainName (tag : Tag) : Prop where
  noDefault : tag.defaultText = none
  solid : ∀ c ∈ tag.name.toList, isBlank c = false
  noBracket : tag.name.toList.head? ≠ some '['
  noBrace : tag.typeText = "" → tag.name.toList.head? ≠ some '{'

/-- A name that can be written in brackets, together with its default. -/
structure BracketedName (tag : Tag) : Prop where
  named : tag.name ≠ ""
  name : Unindented tag.name.toList ∧ Unpadded tag.name.toList ∧ '=' ∉ tag.name.toList
  default : ∀ text ∈ tag.defaultText,
    text ≠ "" ∧ Unindented text.toList ∧ Unpadded text.toList
  single : '\n' ∉ nameAndDefault tag
  balanced : Balanced '[' ']' (nameAndDefault tag)

/-- A tag that can be written. -/
structure Writable (tag : Tag) : Prop where
  title : ∀ c ∈ tag.title.toList, isBlank c = false ∧ c ≠ '{'
  type : Unindented tag.typeText.toList ∧ Unpadded tag.typeText.toList ∧
    '\n' ∉ tag.typeText.toList ∧ Balanced '{' '}' tag.typeText.toList
  name : if tag.optional then BracketedName tag else PlainName tag
  tidy : Tidy (descriptionLines tag.description)
  beside : Unindented (besideName tag)
  below : ∀ line ∈ belowName tag, ¬StartsTag line

/-- A description of a comment that can be written. -/
structure WritableDescription (description : String) : Prop where
  tidy : Tidy (descriptionLines description)
  unindented : Unindented description.toList
  untagged : ∀ line ∈ descriptionLines description, ¬StartsTag line

section Decidability

-- As for `Unindented`, the search is to find the instance that goes through the text alone.
instance decidableForallCharacter (text : List Char) (holds : Char → Prop) [DecidablePred holds] :
    Decidable (∀ c ∈ text, holds c) :=
  List.decidableBAll holds text

instance : DecidablePred Tidy := fun lines =>
  decidable_of_iff
    ((∀ line ∈ lines, Unpadded line) ∧ lines.head? ≠ some [] ∧ lines.getLast? ≠ some [])
    ⟨fun ⟨unpadded, first, last⟩ => ⟨unpadded, first, last⟩,
      fun ⟨unpadded, first, last⟩ => ⟨unpadded, first, last⟩⟩

instance : DecidablePred PlainName := fun tag =>
  decidable_of_iff
    (tag.defaultText = none ∧ (∀ c ∈ tag.name.toList, isBlank c = false) ∧
      tag.name.toList.head? ≠ some '[' ∧
      (tag.typeText = "" → tag.name.toList.head? ≠ some '{'))
    ⟨fun ⟨noDefault, solid, noBracket, noBrace⟩ => ⟨noDefault, solid, noBracket, noBrace⟩,
      fun ⟨noDefault, solid, noBracket, noBrace⟩ => ⟨noDefault, solid, noBracket, noBrace⟩⟩

instance : DecidablePred BracketedName := fun tag =>
  decidable_of_iff
    (tag.name ≠ "" ∧
      (Unindented tag.name.toList ∧ Unpadded tag.name.toList ∧ '=' ∉ tag.name.toList) ∧
      (∀ text ∈ tag.defaultText, text ≠ "" ∧ Unindented text.toList ∧ Unpadded text.toList) ∧
      '\n' ∉ nameAndDefault tag ∧ Balanced '[' ']' (nameAndDefault tag))
    ⟨fun ⟨named, name, default, single, balanced⟩ => ⟨named, name, default, single, balanced⟩,
      fun ⟨named, name, default, single, balanced⟩ => ⟨named, name, default, single, balanced⟩⟩

instance : DecidablePred Writable := fun tag =>
  decidable_of_iff
    ((∀ c ∈ tag.title.toList, isBlank c = false ∧ c ≠ '{') ∧
      (Unindented tag.typeText.toList ∧ Unpadded tag.typeText.toList ∧
        '\n' ∉ tag.typeText.toList ∧ Balanced '{' '}' tag.typeText.toList) ∧
      (if tag.optional then BracketedName tag else PlainName tag) ∧
      Tidy (descriptionLines tag.description) ∧ Unindented (besideName tag) ∧
      ∀ line ∈ belowName tag, ¬StartsTag line)
    ⟨fun ⟨title, type, name, tidy, beside, below⟩ => ⟨title, type, name, tidy, beside, below⟩,
      fun ⟨title, type, name, tidy, beside, below⟩ => ⟨title, type, name, tidy, beside, below⟩⟩

instance : DecidablePred WritableDescription := fun description =>
  decidable_of_iff
    (Tidy (descriptionLines description) ∧ Unindented description.toList ∧
      ∀ line ∈ descriptionLines description, ¬StartsTag line)
    ⟨fun ⟨tidy, unindented, untagged⟩ => ⟨tidy, unindented, untagged⟩,
      fun ⟨tidy, unindented, untagged⟩ => ⟨tidy, unindented, untagged⟩⟩

end Decidability

section Lines

theorem not_isBlank_of_mem_title {tag : Tag} (writable : Writable tag) {c : Char}
    (member : c ∈ tag.title.toList) : isBlank c = false :=
  (writable.title c member).1

theorem isBlank_lineFeed : isBlank '\n' = true := by
  decide

/-- A line feed is a blank, so solid texts are within a line. -/
theorem lineFeed_not_mem {text : List Char} (solid : ∀ c ∈ text, isBlank c = false) :
    '\n' ∉ text := by
  intro member
  have blank := solid '\n' member
  rw [isBlank_lineFeed] at blank
  cases blank

theorem lineFeed_not_mem_spaced {part : List Char} (single : '\n' ∉ part) :
    '\n' ∉ spaced part := by
  cases part with
  | nil => exact single
  | cons c part => simpa [spaced] using single

theorem unpadded_spaced {part : List Char} (unpadded : Unpadded part) :
    Unpadded (spaced part) := by
  cases part with
  | nil => exact unpadded
  | cons c part =>
      intro last member
      exact unpadded last (by simpa [spaced] using member)

theorem lineFeed_not_mem_descriptionLines {description : String} {line : List Char}
    (member : line ∈ descriptionLines description) : '\n' ∉ line := by
  rw [descriptionLines] at member
  split at member
  · cases member
  · exact Text.not_mem_of_mem_splitOn member

theorem besideName_eq_or_mem (tag : Tag) :
    besideName tag = [] ∨ besideName tag ∈ descriptionLines tag.description := by
  rw [besideName]
  split
  · exact .inl rfl
  · cases descriptionLines tag.description with
    | nil => exact .inl rfl
    | cons line more => exact .inr List.mem_cons_self

theorem besideName_of_description_eq {tag : Tag} (undescribed : tag.description = "") :
    besideName tag = [] := by
  rw [besideName, undescribed]
  split <;> rfl

theorem belowName_of_description_eq {tag : Tag} (undescribed : tag.description = "") :
    belowName tag = [] := by
  rw [belowName, undescribed]
  split <;> rfl

theorem mem_descriptionLines_of_mem_belowName {tag : Tag} {line : List Char}
    (member : line ∈ belowName tag) : line ∈ descriptionLines tag.description := by
  rw [belowName] at member
  split at member
  · exact member
  · exact List.mem_of_mem_tail member

/-- The parts of a line are in one line, and none of them ends with a blank. -/
theorem isLine_namePart {tag : Tag} (writable : Writable tag) :
    '\n' ∉ namePart tag ∧ Unpadded (namePart tag) := by
  have name := writable.name
  rw [namePart]
  split at name
  · rename_i optional
    rw [if_pos optional]
    exact ⟨by simpa using name.single, Text.unpadded_concat (by decide) _⟩
  · rename_i plain
    rw [if_neg plain]
    exact ⟨lineFeed_not_mem name.solid, Text.unpadded_of_forall name.solid⟩

theorem isLine_typePart {tag : Tag} (writable : Writable tag) :
    '\n' ∉ typePart tag ∧ Unpadded (typePart tag) := by
  obtain ⟨-, -, single, -⟩ := writable.type
  rw [typePart]
  split
  · exact ⟨List.not_mem_nil, Text.unpadded_nil⟩
  · exact ⟨by simpa using single, Text.unpadded_concat (by decide) _⟩

theorem isLine_besideName {tag : Tag} (writable : Writable tag) :
    '\n' ∉ besideName tag ∧ Unpadded (besideName tag) := by
  rcases besideName_eq_or_mem tag with absent | member
  · rw [absent]
    exact ⟨List.not_mem_nil, Text.unpadded_nil⟩
  · exact ⟨lineFeed_not_mem_descriptionLines member, writable.tidy.unpadded _ member⟩

/-- The line of a tag is one line and does not end with a blank. -/
theorem isLine_tagText {tag : Tag} (writable : Writable tag) :
    '\n' ∉ '@' :: tagText tag ∧ Unpadded ('@' :: tagText tag) := by
  have title : ∀ c ∈ '@' :: tag.title.toList, isBlank c = false := by
    intro c member
    rcases List.mem_cons.mp member with rfl | inTitle
    · decide
    · exact not_isBlank_of_mem_title writable inTitle
  obtain ⟨typeSingle, typeUnpadded⟩ := isLine_typePart writable
  obtain ⟨nameSingle, nameUnpadded⟩ := isLine_namePart writable
  obtain ⟨besideSingle, besideUnpadded⟩ := isLine_besideName writable
  have whole : '@' :: tagText tag = '@' :: tag.title.toList ++
      (spaced (typePart tag) ++ (spaced (namePart tag) ++ spaced (besideName tag))) := rfl
  rw [whole]
  constructor
  · simp only [List.mem_append, not_or]
    exact ⟨lineFeed_not_mem title, lineFeed_not_mem_spaced typeSingle,
      lineFeed_not_mem_spaced nameSingle, lineFeed_not_mem_spaced besideSingle⟩
  · exact (Text.unpadded_of_forall title).append ((unpadded_spaced typeUnpadded).append
      ((unpadded_spaced nameUnpadded).append (unpadded_spaced besideUnpadded)))

theorem isLine_of_mem_commentLines {description : String} {tags : List Tag}
    (described : WritableDescription description) (writable : ∀ tag ∈ tags, Writable tag)
    {line : List Char} (member : line ∈ commentLines description tags) :
    '\n' ∉ line ∧ Unpadded line := by
  rcases List.mem_append.mp member with early | late
  · exact ⟨lineFeed_not_mem_descriptionLines early, described.tidy.unpadded line early⟩
  · obtain ⟨tag, inTags, inTag⟩ := List.mem_flatMap.mp late
    rcases List.mem_cons.mp inTag with rfl | below
    · exact isLine_tagText (writable tag inTags)
    · have inDescription := mem_descriptionLines_of_mem_belowName below
      exact ⟨lineFeed_not_mem_descriptionLines inDescription,
        (writable tag inTags).tidy.unpadded line inDescription⟩

end Lines

section Reading

theorem stripDelimiter_starred {line : List Char} (unpadded : Unpadded line) :
    stripDelimiter (starred line) = line := by
  have started : Text.trimStart (starred line) = '*' :: ' ' :: line := by
    rw [starred, Text.trimStart, List.dropWhile_cons_of_pos (by decide)]
    exact Text.trimStart_of_not_isBlank (by decide)
  rw [stripDelimiter, started]
  exact unpadded.trimEnd_eq

theorem lines_writeLines {lines : List (List Char)}
    (isLine : ∀ line ∈ lines, '\n' ∉ line ∧ Unpadded line) (rest : List Char) :
    Text.lines (writeLines lines ++ rest) = lines.map starred ++ Text.lines rest := by
  induction lines with
  | nil => rfl
  | cons line lines ih =>
      obtain ⟨single, unpadded⟩ := isLine line (by simp)
      have starredSingle : '\n' ∉ starred line := by simpa [starred] using single
      have plain : (starred line).getLast? ≠ some '\r' := by
        cases line with
        | nil => decide
        | cons c line =>
            intro last
            have blank := unpadded '\r' (by simpa [starred] using last)
            exact absurd blank (by decide)
      have later := ih fun other member => isLine other (by simp [member])
      have split : writeLines (line :: lines) ++ rest =
          starred line ++ '\n' :: (writeLines lines ++ rest) := by
        simp [writeLines]
      rw [split, Text.lines_append_lineFeed starredSingle plain, later]
      rfl

/-- The lines of a comment are those of which it was made, between two empty ones. -/
theorem strippedLines_of_isLine {description : String} {tags : List Tag}
    (isLine : ∀ line ∈ commentLines description tags, '\n' ∉ line ∧ Unpadded line) :
    (Text.lines (innerText (write description tags))).map stripDelimiter =
      [] :: commentLines description tags ++ [[]] := by
  have stripped : (commentLines description tags).map (stripDelimiter ∘ starred) =
      commentLines description tags :=
    (List.map_congr_left fun line member => stripDelimiter_starred (isLine line member).2).trans
      (List.map_id _)
  rw [write, innerText_marked, List.cons_append, Text.lines, if_pos rfl, lines_writeLines isLine,
    List.map_cons, List.map_append, List.map_map, stripped]
  rfl

theorem strippedLines_write {description : String} {tags : List Tag}
    (described : WritableDescription description) (writable : ∀ tag ∈ tags, Writable tag) :
    (Text.lines (innerText (write description tags))).map stripDelimiter =
      [] :: commentLines description tags ++ [[]] :=
  strippedLines_of_isLine fun _ member => isLine_of_mem_commentLines described writable member

end Reading

end ApiAssembly.Comment
