import ApiAssembly.Yaml.Cursor

/-!
# Gaps within scalars

Blanks and line breaks inside a scalar that goes on behind them.  Blanks on one line
stay; around line breaks they vanish, a single break becomes a space, and further
breaks are kept.
-/

namespace ApiAssembly.Yaml

/-- A gap: the blanks in front of the first break, whether there was a break, the break,
and the breaks behind it. -/
structure Gap where
  blanks : List Char := []
  broken : Bool := false
  first : List Char := []
  more : List Char := []

/-- What a gap counts for between the parts of a scalar. -/
def Gap.fold (gap : Gap) : List Char :=
  if gap.broken then
    if gap.first.head? = some '\n' then
      if gap.more = [] then [' '] else gap.more
    else gap.first ++ gap.more
  else gap.blanks

/-- Read on in a gap.  Where an indentation is given, a tab in front of it on a further line
is refused.  The first argument bounds the number of characters. -/
def Gap.read? (indentation : Option Int) : Nat → Gap → Cursor → Option (Gap × Cursor)
  | 0, gap, cursor => some (gap, cursor)
  | fuel + 1, gap, cursor =>
    match cursor.rest with
    | [] => some (gap, cursor)
    | c :: _ =>
      if isBlank c then
        if gap.broken then
          if c = '\t' && indentation.any fun indent => (cursor.column : Int) < indent then none
          else read? indentation fuel gap (cursor.advance 1)
        else read? indentation fuel { gap with blanks := gap.blanks ++ [c] } (cursor.advance 1)
      else if isBreak c then
        let (text, after) := cursor.takeBreak
        if gap.broken then read? indentation fuel { gap with more := gap.more ++ text } after
        else read? indentation fuel { broken := true, first := text } after
      else some (gap, cursor)

end ApiAssembly.Yaml
