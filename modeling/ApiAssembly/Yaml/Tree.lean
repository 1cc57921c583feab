import ApiAssembly.Entries
import ApiAssembly.Yaml.Token

/-!
# Trees of YAML documents

The tree of a document as its tokens show it: scalars, sequences and mappings with
their anchors and tags, and aliases.  Anchors are named in the text; in a second form
of the tree they are numbered, so that an alias tells which anchor it means.
-/

namespace ApiAssembly.Yaml

/-- The anchor and the tag of a node. -/
structure Label (ν : Type) where
  anchor : Option ν := none
  tag : Option String := none

/-- A node of a document; anchors are of the type `ν`. -/
inductive Tree (ν : Type) where
  | alias (target : ν)
  | scalar (label : Label ν) (plain : Bool) (text : String)
  | sequence (label : Label ν) (items : List (Tree ν))
  | mapping (label : Label ν) (entries : List (Tree ν × Tree ν))

/-- The handles of tags with what they stand for. -/
abbrev Handles := List (List Char × List Char)

/-- The handles that every document has. -/
def defaultHandles : Handles :=
  [(['!'], ['!']), (['!', '!'], "tag:yaml.org,2002:".toList)]

/-- The tag that a handle and a suffix stand for. -/
def resolveTag? (handles : Handles) (handle suffix : List Char) : Option String :=
  if handle = [] then some (String.ofList suffix)
  else (handles.lookup handle).map fun base => String.ofList (base ++ suffix)

/-- Read the anchor and the tag of a node, which come in either order. -/
def readLabel? (handles : Handles) : List Token → Option (Label String × List Token)
  | .anchor name :: .tag handle suffix :: rest
  | .tag handle suffix :: .anchor name :: rest => do
    return (⟨some (String.ofList name), some (← resolveTag? handles handle suffix)⟩, rest)
  | .anchor name :: rest => some (⟨some (String.ofList name), none⟩, rest)
  | .tag handle suffix :: rest => do
    return (⟨none, some (← resolveTag? handles handle suffix)⟩, rest)
  | rest => some ({}, rest)

def emptyNode (label : Label String) : Tree String :=
  .scalar label true ""

/-- A scalar with its label.  A single exclamation mark is no tag of a scalar. -/
def scalarNode (label : Label String) (plain : Bool) (text : List Char) : Tree String :=
  if label.tag = some "!" then .scalar { label with tag := none } plain (String.ofList text)
  else .scalar label plain (String.ofList text)

/-- Where a node may stand: within brackets, in a block, or as a part of an entry in a
block mapping, where a sequence needs no indentation. -/
inductive Context where
  | flow | block | entry
deriving DecidableEq

/-- Whether no node is written in front of a token within a block mapping. -/
def endsBlockPart : Option Token → Bool
  | none | some .key | some .value | some .blockEnd => true
  | _ => false

def endsBlockEntry (indented : Bool) : Option Token → Bool
  | none | some .blockEntry | some .blockEnd => true
  | some .key | some .value => !indented
  | _ => false

/-- Whether no node is written in front of a token within brackets, of which the closing one
is given. -/
def endsFlowPart (closing : Token) (token : Option Token) : Bool :=
  token = some .flowEntry || token = some closing

mutual

/-- Read a node.  In all these functions the first argument bounds the depth of calls, and
the result comes with the tokens that follow. -/
def readNode? (handles : Handles) :
    Nat → Context → List Token → Option (Tree String × List Token)
  | 0, _, _ => none
  | fuel + 1, context, tokens => do
    if let .alias name :: rest := tokens then return (.alias (String.ofList name), rest)
    let (label, rest) ← readLabel? handles tokens
    let labelled := label.anchor.isSome || label.tag.isSome
    let absent := if labelled then some (emptyNode label, rest) else none
    match rest with
    | .scalar plain text :: rest => return (scalarNode label plain text, rest)
    | .flowSequenceStart :: rest =>
      let (items, rest) ← readFlowSequence? handles fuel true rest
      return (.sequence label items, rest)
    | .flowMappingStart :: rest =>
      let (entries, rest) ← readFlowMapping? handles fuel true rest
      return (.mapping label entries, rest)
    | .blockSequenceStart :: rest =>
      if context = .flow then absent
      else
        let (items, rest) ← readBlockSequence? handles fuel true rest
        return (.sequence label items, rest)
    | .blockMappingStart :: rest =>
      if context = .flow then absent
      else
        let (entries, rest) ← readBlockMapping? handles fuel rest
        return (.mapping label entries, rest)
    | .blockEntry :: _ =>
      if context = .entry then
        let (items, rest) ← readBlockSequence? handles fuel false rest
        return (.sequence label items, rest)
      else absent
    | _ => absent

/-- Read the entries of a block sequence.  One that is not indented has no end of its own. -/
def readBlockSequence? (handles : Handles) :
    Nat → Bool → List Token → Option (List (Tree String) × List Token)
  | 0, _, _ => none
  | fuel + 1, indented, tokens =>
    match tokens with
    | .blockEntry :: rest => do
      let (item, rest) ←
        if endsBlockEntry indented rest.head? then some (emptyNode {}, rest)
        else readNode? handles fuel .block rest
      let (items, rest) ← readBlockSequence? handles fuel indented rest
      return (item :: items, rest)
    | .blockEnd :: rest => if indented then some ([], rest) else some ([], .blockEnd :: rest)
    | rest => if indented then none else some ([], rest)

def readBlockMapping? (handles : Handles) :
    Nat → List Token → Option (List (Tree String × Tree String) × List Token)
  | 0, _ => none
  | fuel + 1, tokens => do
    let (key, rest) ←
      match tokens with
      | .blockEnd :: rest => return ([], rest)
      | .key :: rest =>
        if endsBlockPart rest.head? then some (emptyNode {}, rest)
        else readNode? handles fuel .entry rest
      | _ => none
    let (value, rest) ←
      match rest with
      | .value :: rest =>
        if endsBlockPart rest.head? then some (emptyNode {}, rest)
        else readNode? handles fuel .entry rest
      | rest => some (emptyNode {}, rest)
    let (entries, rest) ← readBlockMapping? handles fuel rest
    return ((key, value) :: entries, rest)

/-- Read the value of an entry within brackets, of which the closing one is given. -/
def readFlowValue? (handles : Handles) :
    Nat → Token → List Token → Option (Tree String × List Token)
  | 0, _, _ => none
  | fuel + 1, closing, tokens =>
    match tokens with
    | .value :: rest =>
      if endsFlowPart closing rest.head? then some (emptyNode {}, rest)
      else readNode? handles fuel .flow rest
    | rest => some (emptyNode {}, rest)

/-- Read the items of a sequence in brackets.  An entry of a mapping among them is a mapping
of one entry; if such an entry has no key, the token in the place of the key is lost. -/
def readFlowSequence? (handles : Handles) :
    Nat → Bool → List Token → Option (List (Tree String) × List Token)
  | 0, _, _ => none
  | fuel + 1, first, tokens => do
    if let .flowSequenceEnd :: rest := tokens then return ([], rest)
    let tokens ←
      if first then some tokens
      else match tokens with
        | .flowEntry :: rest => some rest
        | _ => none
    match tokens with
    | .flowSequenceEnd :: rest => return ([], rest)
    | .key :: rest =>
      let (key, rest) ←
        if endsFlowPart .flowSequenceEnd rest.head? || rest.head? = some .value then
          some (emptyNode {}, rest.drop 1)
        else readNode? handles fuel .flow rest
      let (value, rest) ← readFlowValue? handles fuel .flowSequenceEnd rest
      let (items, rest) ← readFlowSequence? handles fuel false rest
      return (.mapping {} [(key, value)] :: items, rest)
    | tokens =>
      let (item, rest) ← readNode? handles fuel .flow tokens
      let (items, rest) ← readFlowSequence? handles fuel false rest
      return (item :: items, rest)

def readFlowMapping? (handles : Handles) :
    Nat → Bool → List Token → Option (List (Tree String × Tree String) × List Token)
  | 0, _, _ => none
  | fuel + 1, first, tokens => do
    if let .flowMappingEnd :: rest := tokens then return ([], rest)
    let tokens ←
      if first then some tokens
      else match tokens with
        | .flowEntry :: rest => some rest
        | _ => none
    match tokens with
    | .flowMappingEnd :: rest => return ([], rest)
    | .key :: rest =>
      let (key, rest) ←
        if endsFlowPart .flowMappingEnd rest.head? || rest.head? = some .value then
          some (emptyNode {}, rest)
        else readNode? handles fuel .flow rest
      let (value, rest) ← readFlowValue? handles fuel .flowMappingEnd rest
      let (entries, rest) ← readFlowMapping? handles fuel false rest
      return ((key, value) :: entries, rest)
    | tokens =>
      let (key, rest) ← readNode? handles fuel .flow tokens
      let (entries, rest) ← readFlowMapping? handles fuel false rest
      return ((key, emptyNode {}) :: entries, rest)

end

/-- Read the directives in front of a document: at most one version, which must be known,
and handles, none of them twice. -/
def readDirectives? :
    Bool → Handles → List Token → Option (Handles × List Token)
  | versioned, handles, .version major minor :: rest =>
    if versioned || major ≠ 1 || (minor ≠ 1 && minor ≠ 2) then none
    else readDirectives? true handles rest
  | versioned, handles, .tagHandle handle base :: rest =>
    if (handles.lookup handle).isSome then none
    else readDirectives? versioned (handles ++ [(handle, base)]) rest
  | _, handles, rest => some (handles, rest)

/-- Whether no node is written in front of a token of a document. -/
def endsDocument : Option Token → Bool
  | none | some .documentStart | some .documentEnd | some (.version ..)
  | some (.tagHandle ..) => true
  | _ => false

/-- Read the only document of a text.  There is no tree without a document, and no result
if the text is not in order. -/
def readDocument? (tokens : List Token) : Option (Option (Tree String)) := do
  if tokens = [] then return none
  let (handles, rest) ← readDirectives? false [] tokens
  let handles := handles ++ defaultHandles
  let fuel := 2 * tokens.length + 2
  let (tree, rest) ←
    match rest with
    | .documentStart :: rest =>
      if endsDocument rest.head? then some (emptyNode {}, rest)
      else readNode? handles fuel .block rest
    | rest =>
      if rest.length = tokens.length then readNode? handles fuel .block rest else none
  if rest.all fun token => token = .documentEnd then return some tree else none

end ApiAssembly.Yaml
