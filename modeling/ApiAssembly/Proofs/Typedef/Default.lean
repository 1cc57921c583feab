import ApiAssembly.Proofs.Comment.RoundTrip
import ApiAssembly.Proofs.Json.CompactText
import ApiAssembly.Proofs.Json.Extending
import ApiAssembly.Proofs.Typedef.Reading
import ApiAssembly.Proofs.Typedef.Running

/-!
# Defaults written as JSON

A default stands within the brackets of an optional name.  The bracket that closes them is found
by counting, also within strings, so a default whose brackets do not match is cut off or
reported.  One whose brackets match is read as JSON, in which floating-point numbers may be
changed.  The main statement says that the default is exactly then the value that was written.
-/

namespace ApiAssembly.Typedef

open Comment
open Json (FloatsKept EachText compactChars)
open Text (Unindented Unpadded isBlank)

section Writing

def objectTag (typeName : String) : Tag :=
  { title := "typedef", typeText := "Object", name := typeName }

def defaultTag (property : String) (text : List Char) (description : String) : Tag :=
  { title := "property", typeText := "string", name := property, optional := true,
    defaultText := some (String.ofList text), description }

/-- A comment that defines a type of objects with one property and a default for it. -/
def defaultComment (typeName property : String) (text : List Char) : List Char :=
  write "" [objectTag typeName, defaultTag property text ""]

example : String.ofList (defaultComment "T" "p" (compactChars (.array [.bool true]))) =
    "/**\n * @typedef \x7bObject\x7d T\n * @property \x7bstring\x7d [p=[true]]\n */" := by
  decide

/-- Names that are written as they are: one of a type and one of a property directly below it. -/
structure PlainNames (typeName property : String) : Prop where
  typed : typeName ≠ ""
  typeSolid : ∀ c ∈ typeName.toList, isBlank c = false
  typeFirst : typeName.toList.head? ≠ some '['
  named : property ≠ ""
  solid : ∀ c ∈ property.toList, isBlank c = false
  unmarked : ∀ c ∈ property.toList, c ∉ ['=', '.', '[', ']']

end Writing

section Parsing

variable {typeName property : String} {text : List Char}

theorem writable_objectTag (names : PlainNames typeName property) :
    Writable (objectTag typeName) where
  title := (by decide : ∀ c ∈ "typedef".toList, isBlank c = false ∧ c ≠ '{')
  type := (by decide : Unindented "Object".toList ∧ Unpadded "Object".toList ∧
    '\n' ∉ "Object".toList ∧ Balanced '{' '}' "Object".toList)
  name := ⟨rfl, names.typeSolid, names.typeFirst, fun untyped => absurd untyped
    (by decide : ¬"Object" = "")⟩
  tidy := (by decide : Tidy (descriptionLines ""))
  beside := by
    rw [besideName_of_description_eq rfl]
    decide
  below := by
    rw [belowName_of_description_eq rfl]
    exact List.forall_mem_nil _

theorem namePart_defaultTag :
    namePart (defaultTag property text "") =
      '[' :: (property.toList ++ '=' :: (text ++ [']'])) := by
  simp [namePart, nameAndDefault, defaultTag]

theorem tagText_defaultTag : tagText (defaultTag property text "") =
    "property".toList ++ (' ' :: '{' :: ("string".toList ++ '}' :: ' ' ::
      '[' :: (property.toList ++ '=' :: (text ++ [']'])))) := by
  have typed : (defaultTag property text "").typeText ≠ "" := (by decide : "string" ≠ "")
  rw [tagText, besideName_of_description_eq rfl, namePart_defaultTag, typePart, if_neg typed]
  simp [spaced, defaultTag]

theorem isLine_defaultTag (names : PlainNames typeName property) (single : '\n' ∉ text) :
    '\n' ∉ '@' :: tagText (defaultTag property text "") ∧
      Unpadded ('@' :: tagText (defaultTag property text "")) := by
  have inProperty := lineFeed_not_mem names.solid
  have ended : '@' :: tagText (defaultTag property text "") =
      '@' :: ("property".toList ++ (' ' :: '{' :: ("string".toList ++ '}' :: ' ' ::
        '[' :: (property.toList ++ '=' :: text)))) ++ [']'] := by
    simp [tagText_defaultTag]
  rw [ended]
  exact ⟨by simp [inProperty, single], Text.unpadded_concat (by decide) _⟩

/-- What is read of the name and the default in brackets. -/
def readDefault (property : String) (text : List Char) : Tag × List Problem :=
  readName { title := "property", typeText := "string" } 2
    ('[' :: (property.toList ++ '=' :: (text ++ [']']))) [[]]

theorem parseBlock_defaultComment (names : PlainNames typeName property) (single : '\n' ∉ text) :
    parseBlock (defaultComment typeName property text) =
      { source := String.ofList (defaultComment typeName property text)
        description := ""
        tags := [objectTag typeName, (readDefault property text).1]
        problems := (readDefault property text).2 } := by
  have writable := writable_objectTag names
  have written : commentLines "" [objectTag typeName, defaultTag property text ""] =
      ['@' :: tagText (objectTag typeName), '@' :: tagText (defaultTag property text "")] := by
    have undescribed : descriptionLines "" = [] := if_pos rfl
    rw [commentLines, undescribed, List.flatMap_cons, List.flatMap_cons, tagLines, tagLines,
      belowName_of_description_eq rfl, belowName_of_description_eq rfl]
    rfl
  have isLine : ∀ line ∈ commentLines "" [objectTag typeName, defaultTag property text ""],
      '\n' ∉ line ∧ Unpadded line := by
    rw [written, List.forall_mem_cons, List.forall_mem_singleton]
    exact ⟨isLine_tagText writable, isLine_defaultTag names single⟩
  have readFirst : readTag 1 (tagText (objectTag typeName)) [] = (objectTag typeName, []) := by
    have read := readTag_written writable 1 (List.forall_mem_nil (· = []))
    rwa [belowName_of_description_eq rfl] at read
  have readSecond : readTag 2 (tagText (defaultTag property text "")) [[]] =
      readDefault property text := by
    have opened : Unindented (namePart (defaultTag property text "")) := by
      rw [namePart_defaultTag]
      rintro c ⟨⟩
      decide
    rw [readTag_tagText 2 [[]] (by decide : ∀ c ∈ "property".toList, isBlank c = false ∧ c ≠ '{')
      (by decide : Unindented "string".toList) (by decide : Unpadded "string".toList)
      (by decide : Balanced '{' '}' "string".toList) opened
      (fun _ => besideName_of_description_eq rfl)
      (fun untyped => absurd untyped (by decide : "string" ≠ "")),
      besideName_of_description_eq rfl, namePart_defaultTag, spaced, List.append_nil]
    rfl
  have grouped (first second : List Char) :
      groupLines (numberLines 0 ([] :: ['@' :: first, '@' :: second] ++ [[]])) =
        ([[]], [⟨1, first, []⟩, ⟨2, second, [[]]⟩]) := by
    have blank : ¬StartsTag [] := by decide
    rw [List.cons_append, numberLines, groupLines_cons_of_not_startsTag blank, List.cons_append,
      numberLines, groupLines_cons_tag, List.cons_append, numberLines, groupLines_cons_tag]
    rfl
  rw [parseBlock, defaultComment, strippedLines_of_isLine isLine, written, grouped]
  simp only [List.map_cons, List.map_nil, readFirst, readSecond, List.flatMap_cons,
    List.flatMap_nil, List.nil_append, List.append_nil]
  rfl

end Parsing

section Brackets

variable {typeName property : String} {text inside after : List Char} {left : Nat}

/-- The name leaves the bracket open, so the default decides where it is closed. -/
theorem closeGroup_property (names : PlainNames typeName property) (rest : List Char) :
    closeGroup '[' ']' 0 (property.toList ++ '=' :: rest) =
      (closeGroup '[' ']' 0 rest).map
        fun (inside, after) => (property.toList ++ '=' :: inside, after) := by
  have free : Balanced '[' ']' (property.toList ++ ['=']) := by
    apply balanced_of_not_mem
    all_goals
      rw [List.mem_append, not_or]
      exact ⟨fun member => absurd (by decide) (names.unmarked _ member), by decide⟩
  have read := closeGroup_append_of_error (free.closeGroup_eq (by decide) 0) rest
  simpa only [List.append_assoc, List.singleton_append] using read

theorem readDefault_of_open (names : PlainNames typeName property)
    (unclosed : closeGroup '[' ']' 0 (text ++ [']']) = .error left) :
    (readDefault property text).2 = [⟨.unpairedBracket, "property", 2⟩] := by
  rw [readDefault, readName, closeGroup_property names, unclosed]
  rfl

theorem readDefault_of_closed (names : PlainNames typeName property)
    (closed : closeGroup '[' ']' 0 (text ++ [']']) = .ok (inside, after))
    (given : Text.trim inside ≠ []) :
    readDefault property text =
      (defaultTag property (Text.trim inside) (describe (Text.trimStart after) [[]]), []) := by
  have unassigned : '=' ∉ property.toList := fun member =>
    absurd (by decide) (names.unmarked _ member)
  have inhabited : property.toList ≠ [] := by
    simpa [String.toList_eq_nil_iff] using names.named
  have trimmed := Text.trim_eq (Text.unindented_of_forall names.solid)
    (Text.unpadded_of_forall names.solid)
  rw [readDefault, readName, closeGroup_property names, closed]
  simp [readOptional, Except.map, Text.splitFirst_append unassigned, trimmed, inhabited, given,
    defaultTag]

/-- A default whose brackets match is closed by the bracket behind it. -/
theorem readDefault_of_balanced (names : PlainNames typeName property)
    (balanced : Balanced '[' ']' text) (unindented : Unindented text) (unpadded : Unpadded text)
    (given : text ≠ []) : readDefault property text = (defaultTag property text "", []) := by
  have closed := closeGroup_of_balanced (by decide) balanced []
  have trimmed := Text.trim_eq unindented unpadded
  rw [readDefault_of_closed names closed (by rwa [trimmed]), trimmed]
  rfl

/-- A default whose brackets do not match leaves the bracket open or is cut off at an own one. -/
theorem closeGroup_of_not_balanced (unbalanced : ¬Balanced '[' ']' text) :
    (∃ left, closeGroup '[' ']' 0 (text ++ [']']) = .error left) ∨
      ∃ inside after rest, closeGroup '[' ']' 0 (text ++ [']']) = .ok (inside, after) ∧
        text = inside ++ ']' :: rest := by
  rw [balanced_iff_closeGroup (by decide)] at unbalanced
  cases read : closeGroup '[' ']' 0 text with
  | error left =>
      rw [read] at unbalanced
      have further : left ≠ 0 := fun none => unbalanced (by rw [none])
      refine .inl ⟨depthBehind '[' ']' left ']', ?_⟩
      rw [closeGroup_append_of_error read, closeGroup_cons, if_neg fun both => further both.2]
      rfl
  | ok found =>
      obtain ⟨inside, rest⟩ := found
      exact .inr ⟨inside, rest ++ [']'], rest, closeGroup_append_of_ok read [']'],
        eq_of_closeGroup read⟩

end Brackets

section Defining

variable {typeName property : String} {text : List Char} {value : Value}

/-- The schema of an optional property with a default. -/
def defaultPart (description : Option String) (value : Value) : Schema :=
  { Schema.ofType "string" with description, nullable := true, defaultValue := some value }

/-- The type of objects with one property. -/
def definedWith (typeName property : String) (part : Schema) : Typedef where
  name := typeName
  schema :=
    { Schema.ofType "object" with
      title := some typeName
      properties := some [(property, part)] }
  problems := []
  rootTypeError := none

theorem ofText_string : Schema.ofText "string" = .ok (.ofType "string") :=
  @ofText_of_isWord "string".toList (by decide)

theorem rootSchema_object : rootSchema "Object" = (.ofType "object", none) := by
  have converted : Schema.ofText "Object" = .ok (.ofType "object") :=
    @ofText_of_isWord "Object".toList (by decide)
  rw [rootSchema, if_neg (by decide), converted]

theorem splitName_property (names : PlainNames typeName property) :
    splitName property = ("", property) := by
  rw [splitName]
  split
  next cut =>
    have whole := (Text.eq_of_splitLast_eq_some cut).1
    have dot : '.' ∈ property.toList := by
      rw [whole]
      simp
    exact absurd (by decide) (names.unmarked _ dot)
  · rfl

/-- The type of a comment with the two tags has the value of the default's text as the default. -/
theorem ofBlock?_of_tags (names : PlainNames typeName property) {block : Block}
    (undescribed : block.description = "") {description : String}
    (tags : block.tags = [objectTag typeName, defaultTag property text description]) :
    ofBlock? block = some (.ok (definedWith typeName property
      (defaultPart (if description = "" then none else some description)
        (defaultValue (String.ofList text))))) := by
  have defines : definition? block = some (objectTag typeName) := by
    rw [definition?, tags]
    rfl
  have root : rootSchema (objectTag typeName).typeText = (.ofType "object", none) :=
    rootSchema_object
  have begins : beginning block (objectTag typeName) =
      { root := { Schema.ofType "object" with title := some typeName } } := by
    rw [beginning, root, if_pos undescribed]
    rfl
  have silent (progress : Progress) : progress.next (objectTag typeName) = progress := by
    have noProperty : (objectTag typeName).title ≠ "property" := (by decide : "typedef" ≠ _)
    have noExtension : (objectTag typeName).title ≠ "propertyOpenapi" := (by decide : "typedef" ≠ _)
    rw [Progress.next, Progress.apply_eq, if_neg noProperty, if_neg noExtension]
  have converts : propertySchema (defaultTag property text description) =
      .ok (defaultPart (if description = "" then none else some description)
        (defaultValue (String.ofList text))) := by
    have typed : (defaultTag property text description).typeText ≠ "" := (by decide : "string" ≠ "")
    have string : Schema.ofText (defaultTag property text description).typeText =
        .ok (.ofType "string") := ofText_string
    rw [propertySchema, if_neg typed, string]
    rfl
  have split : splitName (defaultTag property text description).name = ("", property) :=
    splitName_property names
  have declares := @Progress.declare_eq_ok (beginning block (objectTag typeName))
    (defaultTag property text description) [] _ _ _ _ (by rw [split]; rfl) converts rfl
    (.property (by rw [begins]; rfl))
  have applies (progress : Progress) : progress.apply (defaultTag property text description) =
      progress.declare (defaultTag property text description) :=
    if_pos rfl
  rw [ofBlock?_of_definition? defines names.typed, tags, List.foldl_cons, List.foldl_cons, silent,
    Progress.next, applies, declares, split, begins, finished, root]
  rfl

end Defining

section Reading

variable {value : Value} {text more rest : List Char}

/-- The compact text of a value is the default of the value if its floating-point numbers are
kept. -/
theorem defaultValue_compact_eq_iff (data : value.IsData)
    (shallow : value.depth ≤ 127) :
    defaultValue (Json.compact value) = value ↔ FloatsKept value := by
  rw [defaultValue, Json.read?_compact data shallow, ← Json.rereadValue?_eq_self_iff data.fit]
  cases read : Json.rereadValue? value with
  | some found => rw [Option.getD_some, Option.some.injEq]
  | none =>
      rw [Option.getD_none]
      refine iff_of_false (fun same => ?_) (by simp)
      obtain ⟨text, rfl⟩ : ∃ text, value = .string text := ⟨_, same.symm⟩
      cases read

/-- A beginning of the compact text of a value, cut off at a bracket, is not read as the value. -/
theorem defaultValue_ne_of_cut (data : value.IsData) (shallow : value.depth ≤ 127)
    (whole : compactChars value = text ++ more) (bracket : ']' ∈ more) :
    defaultValue (String.ofList text) ≠ value := by
  have inWhole : ']' ∈ compactChars value := by
    rw [whole]
    exact List.mem_append_right text bracket
  have noNumber : ∀ number, value ≠ .number number := by
    rintro number rfl
    exact absurd (Json.isNumberPart_of_mem_writeNumber data.fit.fits inWhole) (by decide)
  have unread := Json.read?_of_append data shallow noNumber whole (List.ne_nil_of_mem bracket)
  rw [defaultValue, unread, Option.getD_none]
  rintro rfl
  have written : compactChars (.string (String.ofList text)) =
      '"' :: (text.flatMap Json.escape ++ ['"']) := by
    change Json.writeString _ = _
    rw [Json.writeString, String.toList_ofList, List.cons_append]
  have quotes := Json.eq_or_eq_of_mem_of_quoted (written.symm.trans whole)
  have inEscapes : ']' ∈ text.flatMap Json.escape := by simpa [written] using inWhole
  obtain ⟨c, inText, escaped⟩ := List.mem_flatMap.mp inEscapes
  rcases quotes c inText with rfl | rfl
  · exact absurd escaped (by decide)
  · exact absurd escaped (by decide)

/-- What is left of a default that is cut off at an own bracket is another value. -/
theorem defaultValue_trim_ne {inside : List Char} (data : value.IsData)
    (shallow : value.depth ≤ 127)
    (cut : compactChars value = inside ++ ']' :: rest) :
    Text.trim inside ≠ [] ∧ defaultValue (String.ofList (Text.trim inside)) ≠ value := by
  have inhabited : inside ≠ [] := by
    rintro rfl
    obtain ⟨c, more, begins, starts⟩ := Json.exists_compactChars_cons data.fit
    rw [begins] at cut
    cases cut
    cases starts
  have unindented : Unindented inside := by
    have whole := Json.unindented_compactChars data.fit
    obtain ⟨c, more, rfl⟩ := List.exists_cons_of_ne_nil inhabited
    rw [cut] at whole
    exact whole
  obtain ⟨given, blanks, parts⟩ := unindented.exists_of_trim inhabited
  have whole : compactChars value = Text.trim inside ++ (blanks ++ ']' :: rest) := by
    rw [← List.append_assoc, ← parts]
    exact cut
  exact ⟨given, defaultValue_ne_of_cut data shallow whole (by simp)⟩

/-- A default whose brackets match and whose floating-point numbers are kept is the value that was
written, and any other is reported or becomes another value. -/
theorem ofBlock?_defaultComment {typeName property : String}
    (names : PlainNames typeName property) (data : value.IsData)
    (shallow : value.depth ≤ 127) :
    (Balanced '[' ']' (compactChars value) ∧ FloatsKept value →
      (parseBlock (defaultComment typeName property (compactChars value))).problems = [] ∧
        ofBlock? (parseBlock (defaultComment typeName property (compactChars value))) =
          some (.ok (definedWith typeName property (defaultPart none value)))) ∧
    (¬(Balanced '[' ']' (compactChars value) ∧ FloatsKept value) →
      (parseBlock (defaultComment typeName property (compactChars value))).problems ≠ [] ∨
        ∃ description other, other ≠ value ∧
          ofBlock? (parseBlock (defaultComment typeName property (compactChars value))) =
            some (.ok (definedWith typeName property (defaultPart description other)))) ∧
    (EachText (fun text => Balanced '[' ']' text.toList) value →
      Balanced '[' ']' (compactChars value)) := by
  have single := Json.lineFeed_not_mem_compactChars data.fit
  have unindented := Json.unindented_compactChars data.fit
  have unpadded := Json.unpadded_compactChars data.fit
  have inhabited : compactChars value ≠ [] := by
    obtain ⟨c, rest, begins, -⟩ := Json.exists_compactChars_cons data.fit
    rw [begins]
    exact List.cons_ne_nil c rest
  have parsed := parseBlock_defaultComment names single
  have kept := defaultValue_compact_eq_iff data shallow
  refine ⟨?_, ?_, Json.balanced_compactChars data.fit⟩
  · rintro ⟨balanced, floats⟩
    rw [readDefault_of_balanced names balanced unindented unpadded inhabited] at parsed
    have defined := ofBlock?_of_tags names (congrArg Block.description parsed)
      (congrArg Block.tags parsed)
    have same : defaultValue (String.ofList (compactChars value)) = value := kept.mpr floats
    rw [if_pos rfl, same] at defined
    exact ⟨congrArg Block.problems parsed, defined⟩
  · intro fails
    by_cases balanced : Balanced '[' ']' (compactChars value)
    · rw [readDefault_of_balanced names balanced unindented unpadded inhabited] at parsed
      have changed : defaultValue (String.ofList (compactChars value)) ≠ value :=
        fun same => fails ⟨balanced, kept.mp same⟩
      exact .inr ⟨_, _, changed, ofBlock?_of_tags names (congrArg Block.description parsed)
        (congrArg Block.tags parsed)⟩
    rcases closeGroup_of_not_balanced balanced with
      ⟨left, unclosed⟩ | ⟨inside, after, rest, closed, cut⟩
    · left
      rw [congrArg Block.problems parsed, readDefault_of_open names unclosed]
      exact List.cons_ne_nil _ _
    · obtain ⟨given, changed⟩ := defaultValue_trim_ne data shallow cut
      rw [readDefault_of_closed names closed given] at parsed
      exact .inr ⟨_, _, changed, ofBlock?_of_tags names (congrArg Block.description parsed)
        (congrArg Block.tags parsed)⟩

/-- A value with brackets, quotes and a sign of equality in its texts and with a kept number. -/
def filterValue : Value :=
  .object [("a=b", .array [.string "\"[x]\" y", .number (.float (.ofDecimal false 15 (-1)))]),
    ("c", .array [])]

theorem ofBlock?_defaultComment_filterValue :
    PlainNames "Page" "filter" ∧ filterValue.IsData ∧ filterValue.depth ≤ 127 ∧
      Balanced '[' ']' (compactChars filterValue) ∧ FloatsKept filterValue ∧
      (parseBlock (defaultComment "Page" "filter" (compactChars filterValue))).problems = [] ∧
      ofBlock? (parseBlock (defaultComment "Page" "filter" (compactChars filterValue))) =
        some (.ok (definedWith "Page" "filter" (defaultPart none filterValue))) := by
  have names : PlainNames "Page" "filter" := ⟨by decide, by decide, by decide, by decide, by decide,
    by decide⟩
  have data : filterValue.IsData := by decide
  have shallow : filterValue.depth ≤ 127 := by decide
  have balanced : Balanced '[' ']' (compactChars filterValue) := by decide +kernel
  have kept : FloatsKept filterValue := by
    refine .object ?_
    rw [List.forall_mem_cons, List.forall_mem_singleton]
    refine ⟨.array ?_, .array (List.forall_mem_nil _)⟩
    rw [List.forall_mem_cons, List.forall_mem_singleton]
    exact ⟨.string _, .float (by decide +kernel)⟩
  exact ⟨names, data, shallow, balanced, kept,
    (ofBlock?_defaultComment names data shallow).1 ⟨balanced, kept⟩⟩

/-- A number whose text is read as one of its neighbours. -/
def driftingNumber : Decimal.Binary64 :=
  .ofDecimal false 3 23

/-- A default is cut off at a bracket within its string, and a number is read as its neighbour. -/
theorem ofBlock?_defaultComment_changed :
    (Value.string "]").IsData ∧ (Value.string "]").depth < 127 ∧
      (parseBlock (defaultComment "T" "p" (compactChars (.string "]")))).problems = [] ∧
      ofBlock? (parseBlock (defaultComment "T" "p" (compactChars (.string "]")))) =
        some (.ok (definedWith "T" "p" (defaultPart (some "\"]") (.string "\"")))) ∧
      Value.string "\"" ≠ .string "]" ∧
      (Value.number (.float driftingNumber)).IsData ∧
      (Value.number (.float driftingNumber)).depth < 127 ∧
      (parseBlock (defaultComment "T" "p"
        (compactChars (.number (.float driftingNumber))))).problems = [] ∧
      ∃ neighbour, neighbour ≠ driftingNumber ∧
        ofBlock? (parseBlock (defaultComment "T" "p"
          (compactChars (.number (.float driftingNumber))))) =
          some (.ok (definedWith "T" "p" (defaultPart none (.number (.float neighbour))))) := by
  have names : PlainNames "T" "p" := ⟨by decide, by decide, by decide, by decide, by decide,
    by decide⟩
  have stringParsed := parseBlock_defaultComment names
    (by decide : '\n' ∉ compactChars (.string "]"))
  have described : describe (Text.trimStart ['"', ']']) [[]] = "\"]" := by decide
  have unread : defaultValue (String.ofList (Text.trim ['"'])) = .string "\"" := by rfl
  rw [@readDefault_of_closed _ _ _ ['"'] ['"', ']'] names (by rfl) (by decide), described]
    at stringParsed
  have stringDefined := ofBlock?_of_tags names (congrArg Block.description stringParsed)
    (congrArg Block.tags stringParsed)
  rw [unread, if_neg (by decide)] at stringDefined
  have data : (Value.number (.float driftingNumber)).IsData := by decide
  have numberParsed := parseBlock_defaultComment names (Json.lineFeed_not_mem_compactChars data.fit)
  have inhabited : compactChars (.number (.float driftingNumber)) ≠ [] := by decide +kernel
  have reread : Json.reread? (.float driftingNumber) =
      some (.float (.ofDecimal false 29999999999999997 7)) := by
    decide +kernel
  have read : defaultValue (String.ofList (compactChars (.number (.float driftingNumber)))) =
      .number (.float (.ofDecimal false 29999999999999997 7)) := by
    change defaultValue (Json.compact _) = _
    rw [defaultValue, Json.read?_compact data (by decide), Json.rereadValue?, reread]
    rfl
  rw [readDefault_of_balanced names (by decide +kernel) (Json.unindented_compactChars data.fit)
    (Json.unpadded_compactChars data.fit) inhabited] at numberParsed
  have numberDefined := ofBlock?_of_tags names (congrArg Block.description numberParsed)
    (congrArg Block.tags numberParsed)
  rw [read, if_pos rfl] at numberDefined
  exact ⟨by decide, by decide, congrArg Block.problems stringParsed, stringDefined, by simp, data,
    by decide, congrArg Block.problems numberParsed, _, by decide +kernel, numberDefined⟩

end Reading

end ApiAssembly.Typedef
