import ApiAssembly.Proofs.Comment.RoundTrip
import ApiAssembly.Proofs.TypeExpr.Braces

/-!
# Where the type of a tag ends

A tag's type ends at the brace that closes its group.  Reading a tag counts every brace for
that, also those in the string literals of the type, which the reader of type expressions does
not count.  The main statement says that the two agree on a type in one line just when its
braces are balanced, as they are if those in its string literals are.
-/

namespace ApiAssembly.Comment

open Text (isBlank trimStart trimEnd trim Unindented Unpadded)

/-- A comment of one line with a tag, of which the text behind the sign `@` is given. -/
def lineComment (line : List Char) : List Char :=
  ['/', '*', '*'] ++ (' ' :: '@' :: line ++ [' ']) ++ ['*', '/']

/-- The line of a tag with a type and a name. -/
def typedLine (title typeText name : List Char) : List Char :=
  title ++ ' ' :: '{' :: (typeText ++ '}' :: ' ' :: name)

/-- The comment of one line with a title, a type in braces, and a name. -/
def typedComment (title typeText name : String) : List Char :=
  lineComment (typedLine title.toList typeText.toList name.toList)

example : typedComment "property" "\x7ba: number\x7d" "size" =
    "/** @property \x7b\x7ba: number\x7d\x7d size */".toList := by
  decide

/-- A title goes up to a blank or a brace. -/
def IsTitle (title : List Char) : Prop :=
  ∀ c ∈ title, isBlank c = false ∧ c ≠ '{'

instance : DecidablePred IsTitle := fun title => List.decidableBAll _ title

section Lines

theorem lines_eq_singleton {text : List Char} (inhabited : text ≠ []) (single : '\n' ∉ text) :
    Text.lines text = [text] := by
  induction text with
  | nil => exact absurd rfl inhabited
  | cons c rest ih =>
      rw [List.mem_cons, not_or] at single
      cases rest with
      | nil => simp [Text.lines, Ne.symm single.1]
      | cons next more =>
          have noFeed : next ≠ '\n' := fun same => single.2 (by simp [same])
          rw [Text.lines, if_neg (Ne.symm single.1), if_neg (by simp [noFeed]),
            ih (by simp) single.2]

theorem stripDelimiter_lineComment {line : List Char} (unpadded : Unpadded ('@' :: line)) :
    stripDelimiter (' ' :: '@' :: line ++ [' ']) = '@' :: line := by
  have started : trimStart (' ' :: '@' :: line ++ [' ']) = '@' :: line ++ [' '] := by
    rw [List.cons_append, trimStart, List.dropWhile_cons_of_pos (by decide)]
    exact Text.trimStart_of_not_isBlank (by decide)
  have ended : trimEnd ('@' :: line ++ [' ']) = trimEnd ('@' :: line) := by
    rw [trimEnd, List.reverse_append, List.reverse_singleton, List.singleton_append,
      List.dropWhile_cons_of_pos (by decide)]
    rfl
  rw [stripDelimiter, started]
  exact ended.trans unpadded.trimEnd_eq

/-- A comment of one line is read as the tag on this line. -/
theorem parseBlock_lineComment {line : List Char} (single : '\n' ∉ line)
    (unpadded : Unpadded ('@' :: line)) :
    parseBlock (lineComment line) =
      { source := String.ofList (lineComment line)
        description := ""
        tags := [(readTag 0 line []).1]
        problems := (readTag 0 line []).2 } := by
  have oneLine : Text.lines (innerText (lineComment line)) = [' ' :: '@' :: line ++ [' ']] := by
    rw [lineComment, innerText_marked]
    exact lines_eq_singleton (by simp) (by simp [single])
  rw [parseBlock, oneLine, List.map_singleton, stripDelimiter_lineComment unpadded, numberLines,
    groupLines_cons_tag]
  simp only [numberLines, groupLines, List.map_cons, List.map_nil, List.flatMap_cons,
    List.flatMap_nil, List.append_nil]
  rfl

end Lines

section Types

variable {title typeText name : List Char}

theorem typeText_readName (tag : Tag) (number : Nat) (text : List Char)
    (more : List (List Char)) : (readName tag number text more).1.typeText = tag.typeText := by
  rw [readName.eq_def]
  split
  · split
    · rfl
    · rw [readOptional]
  · rfl

theorem span_typedLine (isTitle : IsTitle title) :
    (typedLine title typeText name).span (fun c => !(isBlank c || c = '{')) =
      (title, ' ' :: '{' :: (typeText ++ '}' :: ' ' :: name)) := by
  apply Text.span_append
  · intro c member
    simp [isTitle c member]
  · intro c member
    cases member
    decide

theorem trimStart_typed :
    trimStart (' ' :: '{' :: (typeText ++ '}' :: ' ' :: name)) =
      '{' :: (typeText ++ '}' :: ' ' :: name) := by
  rw [trimStart, List.dropWhile_cons_of_pos (by decide)]
  exact Text.trimStart_of_not_isBlank (by decide)

theorem typeText_readTag_typedLine (isTitle : IsTitle title) (number : Nat) :
    (readTag number (typedLine title typeText name) []).1.typeText =
      match closeGroup '{' '}' 0 (typeText ++ '}' :: ' ' :: name) with
      | .ok (inside, _) => String.ofList (trim inside)
      | .error _ => "" := by
  rw [readTag, span_typedLine isTitle]
  simp only [trimStart_typed, closeBraces]
  cases closeGroup '{' '}' 0 (typeText ++ '}' :: ' ' :: name) with
  | error left => rfl
  | ok found => exact typeText_readName _ _ _ _

/-- Trimming takes away blanks alone. -/
theorem count_trim {c : Char} (solid : isBlank c = false) (text : List Char) :
    (trim text).count c = text.count c := by
  have counts : ∀ text : List Char, (text.dropWhile isBlank).count c = text.count c := by
    intro text
    have absent : c ∉ text.takeWhile isBlank := by
      intro member
      rw [List.mem_takeWhile_imp member] at solid
      cases solid
    have parts := congrArg (List.count c) (@List.takeWhile_append_dropWhile _ isBlank text)
    rwa [List.count_append, List.count_eq_zero.mpr absent, Nat.zero_add] at parts
  rw [trim, trimEnd, List.count_reverse, counts, List.count_reverse, trimStart, counts]

/-- If the braces of a type are not balanced, its group does not end behind it, and another
type is read. -/
theorem typeText_ne_of_not_balanced (isTitle : IsTitle title)
    (unbalanced : ¬Balanced '{' '}' typeText) (number : Nat) :
    (readTag number (typedLine title typeText name) []).1.typeText ≠ String.ofList typeText := by
  have distinct : '{' ≠ '}' := by decide
  have solid : isBlank '}' = false := by decide
  rw [typeText_readTag_typedLine isTitle]
  cases early : closeGroup '{' '}' 0 typeText with
  | ok found =>
      obtain ⟨inside, rest⟩ := found
      have whole := eq_of_closeGroup early
      rw [closeGroup_append_of_ok early]
      intro same
      have counts := congrArg (List.count '}') (String.ofList_injective same)
      rw [count_trim solid, whole] at counts
      simp at counts
  | error left =>
      rw [closeGroup_append_of_error early]
      cases left with
      | zero => exact absurd ((balanced_iff_closeGroup distinct).mpr early) unbalanced
      | succ left =>
          have goesOn : closeGroup '{' '}' (left + 1) ('}' :: ' ' :: name) =
              (closeGroup '{' '}' left (' ' :: name)).map fun found =>
                ('}' :: found.1, found.2) := by
            rw [closeGroup_cons, if_neg (by simp)]
            rfl
          rw [goesOn]
          cases closeGroup '{' '}' left (' ' :: name) with
          | error others =>
              intro same
              have empty : typeText = [] := (String.ofList_injective same).symm
              exact unbalanced (empty ▸ balanced_of_not_mem List.not_mem_nil List.not_mem_nil)
          | ok found =>
              intro same
              have counts := congrArg (List.count '}') (String.ofList_injective same)
              rw [count_trim solid] at counts
              simp at counts

end Types

section Agreement

variable {title typeText name : List Char}

theorem isLine_typedLine (isTitle : IsTitle title) (single : '\n' ∉ typeText)
    (named : name ≠ []) (solid : ∀ c ∈ name, isBlank c = false) :
    '\n' ∉ typedLine title typeText name ∧
      Unpadded ('@' :: typedLine title typeText name) := by
  have titleSingle : '\n' ∉ title := lineFeed_not_mem fun c member => (isTitle c member).1
  have nameSingle := lineFeed_not_mem solid
  constructor
  · rw [typedLine]
    simp only [List.mem_append, List.mem_cons, not_or]
    exact ⟨titleSingle, by decide, by decide, single, by decide, by decide, nameSingle⟩
  · have last : ('@' :: typedLine title typeText name).getLast? = name.getLast? := by
      have split : '@' :: typedLine title typeText name =
          ('@' :: title ++ ' ' :: '{' :: (typeText ++ ['}', ' '])) ++ name := by
        simp only [typedLine, List.cons_append, List.append_assoc, List.nil_append]
      rw [split, List.getLast?_append, List.getLast?_eq_some_getLast named]
      rfl
    intro c member
    rw [last] at member
    exact solid c (List.mem_of_mem_getLast? member)

/-- A type with balanced braces is read up to its end, and so is the name behind it. -/
theorem readTag_typedLine (isTitle : IsTitle title) (unindented : Unindented typeText)
    (unpadded : Unpadded typeText) (balanced : Balanced '{' '}' typeText)
    (solid : ∀ c ∈ name, isBlank c = false) (noBracket : name.head? ≠ some '[') (number : Nat) :
    readTag number (typedLine title typeText name) [] =
      ({ title := String.ofList title, typeText := String.ofList typeText,
         name := String.ofList name }, []) := by
  have nameStarted : trimStart (' ' :: name) = name := by
    rw [trimStart, List.dropWhile_cons_of_pos (by decide)]
    exact (Text.unindented_of_forall solid).trimStart_eq
  have wholeName : name.span (fun c => !isBlank c) = (name, []) := by
    have cut : (name ++ []).span (fun c => !isBlank c) = (name, []) := by
      apply Text.span_append
      · intro c member
        simp [solid c member]
      · simp
    rwa [List.append_nil] at cut
  rw [readTag, span_typedLine isTitle]
  simp only [trimStart_typed, closeBraces_of_balanced balanced, nameStarted,
    Text.trim_eq unindented unpadded, readName_of_head? noBracket, wholeName]
  rfl

end Agreement

/-- A type in one line is read up to its end just when its braces are balanced, and they are if
those in each of its string literals are. -/
theorem parseBlock_typedComment {title typeText name : String} {tree : TypeExpr}
    (isTitle : IsTitle title.toList) (parsed : TypeExpr.parse typeText = .ok tree)
    (single : '\n' ∉ typeText.toList)
    (unindented : Unindented typeText.toList) (unpadded : Unpadded typeText.toList)
    (named : name ≠ "") (solid : ∀ c ∈ name.toList, isBlank c = false)
    (noBracket : name.toList.head? ≠ some '[') :
    (Balanced '{' '}' typeText.toList →
        parseBlock (typedComment title typeText name) =
          { source := String.ofList (typedComment title typeText name)
            description := ""
            tags := [{ title, typeText, name }]
            problems := [] }) ∧
      (¬Balanced '{' '}' typeText.toList →
        ∀ tag ∈ (parseBlock (typedComment title typeText name)).tags, tag.typeText ≠ typeText) ∧
      ((∀ content ∈ TypeExpr.literals typeText.toList, Balanced '{' '}' content.toList) →
        Balanced '{' '}' typeText.toList) := by
  have inhabited : name.toList ≠ [] := by simpa [String.toList_eq_nil_iff] using named
  obtain ⟨lineSingle, lineUnpadded⟩ := isLine_typedLine isTitle single inhabited solid
  have read := parseBlock_lineComment lineSingle lineUnpadded
  rw [← typedComment] at read
  rw [read]
  refine ⟨fun balanced => ?_, fun unbalanced => ?_, TypeExpr.balanced_of_parse parsed⟩
  · rw [readTag_typedLine isTitle unindented unpadded balanced solid noBracket,
      String.ofList_toList, String.ofList_toList, String.ofList_toList]
  · intro tag member
    rw [List.mem_singleton.mp member]
    have differs := @typeText_ne_of_not_balanced _ _ name.toList isTitle unbalanced 0
    rwa [String.ofList_toList] at differs

/-- A record with braces in a string literal. -/
def recordType : String := "\x7ba: '\x7bb\x7d'\x7d"

theorem parse_recordType :
    TypeExpr.parse recordType = .ok (.record [("a", .string "\x7bb\x7d")]) := by
  let found : TypeExpr.UnionSyntax :=
    .single (.single (.suffixed (.record (.last (.word "a")
      (.single (.single (.suffixed (.atom (.quoted "\x7bb\x7d")) []))))) []))
  have literal : TypeExpr.Spells (.quoted "\x7bb\x7d") ("'\x7bb\x7d'".toList) :=
    .quoted (.inl rfl) (.plain (by decide) (by decide) (.plain (by decide) (by decide)
      (.plain (by decide) (by decide) .nil)))
  have key : TypeExpr.Spells (.word "a") ['a'] := .word (by decide)
  have written : TypeExpr.Written found.tokens recordType.toList :=
    .token (.punctuation rfl) (.token key (.token (.punctuation rfl)
      (.blank rfl (.token literal (.token (.punctuation rfl) .nil)))))
  exact TypeExpr.parse_of_written written

/-- The braces of the record and those in its string literal do not hide the end of the type. -/
theorem parseBlock_recordType :
    (TypeExpr.parse recordType = .ok (.record [("a", .string "\x7bb\x7d")]) ∧
        IsTitle "property".toList ∧ '\n' ∉ recordType.toList ∧ Unindented recordType.toList ∧
        Unpadded recordType.toList ∧ "\x7dn" ≠ "" ∧
        (∀ c ∈ "\x7dn".toList, isBlank c = false) ∧ "\x7dn".toList.head? ≠ some '[') ∧
      Balanced '{' '}' recordType.toList ∧
      (parseBlock (typedComment "property" recordType "\x7dn")).problems = [] ∧
      (parseBlock (typedComment "property" recordType "\x7dn")).tags =
        [{ title := "property", typeText := recordType, name := "\x7dn" }] := by
  have conditions : IsTitle "property".toList ∧ '\n' ∉ recordType.toList ∧
      Unindented recordType.toList ∧ Unpadded recordType.toList ∧ "\x7dn" ≠ "" ∧
      (∀ c ∈ "\x7dn".toList, isBlank c = false) ∧ "\x7dn".toList.head? ≠ some '[' := by
    decide
  have balanced : Balanced '{' '}' recordType.toList := by decide
  have ⟨isTitle, single, unindented, unpadded, named, solid, noBracket⟩ := conditions
  obtain ⟨agrees, -, -⟩ := parseBlock_typedComment isTitle parse_recordType single unindented
    unpadded named solid noBracket
  rw [agrees balanced]
  exact ⟨⟨parse_recordType, conditions⟩, balanced, rfl, rfl⟩

/-- A type that is a string literal with a closing brace alone: the group of the tag ends at
this brace, and what is left of the type is read as the name. -/
theorem parseBlock_quotedBrace :
    (TypeExpr.parse "'\x7d'" = .ok (.string "\x7d") ∧ '\n' ∉ "'\x7d'".toList ∧
        Unindented "'\x7d'".toList ∧ Unpadded "'\x7d'".toList ∧ "n" ≠ "" ∧
        (∀ c ∈ "n".toList, isBlank c = false) ∧ "n".toList.head? ≠ some '[') ∧
      (parseBlock (typedComment "property" "'\x7d'" "n")).tags =
        [{ title := "property", typeText := "'", name := "'\x7d", description := "n" }] ∧
      ¬∃ tag, (parseBlock (typedComment "property" "'\x7d'" "n")).tags = [tag] ∧
        tag.typeText = "'\x7d'" ∧ tag.name = "n" := by
  let found : TypeExpr.UnionSyntax :=
    .single (.single (.suffixed (.atom (.quoted "\x7d")) []))
  have literal : TypeExpr.Spells (.quoted "\x7d") ("'\x7d'".toList) :=
    .quoted (.inl rfl) (.plain (by decide) (by decide) .nil)
  have written : TypeExpr.Written found.tokens "'\x7d'".toList := .token literal .nil
  have tags : (parseBlock (typedComment "property" "'\x7d'" "n")).tags =
      [{ title := "property", typeText := "'", name := "'\x7d", description := "n" }] := by
    decide
  refine ⟨⟨TypeExpr.parse_of_written written, by decide⟩, tags, ?_⟩
  rintro ⟨tag, only, typed, -⟩
  rw [tags] at only
  cases only
  exact absurd typed (by decide)

end ApiAssembly.Comment
