import ApiAssembly.Text.Blank

/-!
# Lines

A line ends at a line feed, and a carriage return directly in front of the line
feed belongs to the line's end.  The text after the last line feed is a line of
its own unless it is empty.
-/

namespace ApiAssembly.Text

/-- The lines of a text, without their ends. -/
def lines : List Char → List (List Char)
  | [] => []
  | c :: rest =>
    if c = '\n' then [] :: lines rest
    else if c = '\r' ∧ rest.head? = some '\n' then lines rest
    else match lines rest with
      | [] => [[c]]
      | line :: more => (c :: line) :: more

/-- The lines written below each other, with a line feed between two of them. -/
def joinLines : List (List Char) → List Char
  | [] => []
  | [line] => line
  | line :: more => line ++ '\n' :: joinLines more

/-- The number of bytes that a text has in UTF-8. -/
def byteLength (text : List Char) : Nat :=
  text.foldr (fun c total => c.utf8Size + total) 0

@[simp] theorem lines_nil : lines [] = [] := rfl

@[simp] theorem joinLines_nil : joinLines [] = [] := rfl

@[simp] theorem joinLines_singleton (line : List Char) : joinLines [line] = line := rfl

@[simp] theorem byteLength_nil : byteLength [] = 0 := rfl

@[simp] theorem byteLength_cons (c : Char) (text : List Char) :
    byteLength (c :: text) = c.utf8Size + byteLength text := rfl

theorem byteLength_append (left right : List Char) :
    byteLength (left ++ right) = byteLength left + byteLength right := by
  induction left with
  | nil => simp
  | cons c left ih => simp [ih, Nat.add_assoc]

end ApiAssembly.Text
