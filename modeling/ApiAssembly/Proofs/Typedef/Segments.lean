import ApiAssembly.Proofs.Text.Search
import ApiAssembly.Typedef.OfComment
import Mathlib.Data.List.Basic

/-!
# Dotted names

A dotted name is cut at its dots into segments.  The segments determine the name, and
the last one is the name that a part has within the part named by the others.
-/

namespace ApiAssembly

namespace Typedef

/-- The segments of a dotted name. -/
def segments (name : String) : List String :=
  (name.toList.splitOn '.').map String.ofList

/-- The place of a part from its name.  The type itself has no name and no segments. -/
def placeOf (name : String) : List String :=
  if name = "" then [] else segments name

theorem segments_ne_nil (name : String) : segments name ≠ [] := by
  simp [segments, List.splitOn_ne_nil]

theorem segments_injective : Function.Injective segments := by
  intro left right same
  have parts : left.toList.splitOn '.' = right.toList.splitOn '.' :=
    List.map_injective_iff.mpr (fun _ _ => String.ofList_injective) same
  have texts := congrArg (List.intercalate ['.']) parts
  rw [List.intercalate_splitOn, List.intercalate_splitOn] at texts
  exact String.toList_inj.mp texts

/-- A dotted name attaches to the part that is named in front of its last dot. -/
theorem splitName_append {leaf : String} (dotless : '.' ∉ leaf.toList) (parent : String) :
    splitName (parent ++ "." ++ leaf) = (parent, leaf) := by
  have cut : Text.splitLast '.' (parent ++ "." ++ leaf).toList =
      some (parent.toList, leaf.toList) := by
    simpa using Text.splitLast_append_cons dotless parent.toList
  rw [splitName, cut]
  simp

/-- A name whose segments are not empty attaches to the part that all segments but the
last one name. -/
theorem segments_eq_placeOf_concat {name : String} (inhabited : "" ∉ segments name) :
    segments name = placeOf (splitName name).1 ++ [(splitName name).2] := by
  rw [splitName]
  split
  · rename_i parent leaf cut
    obtain ⟨whole, dotless⟩ := Text.eq_of_splitLast_eq_some cut
    have cutName : segments name = segments (String.ofList parent) ++ [String.ofList leaf] := by
      simp [segments, whole, List.splitOn_append_cons_self, List.splitOn_eq_singleton dotless]
    have named : String.ofList parent ≠ "" := by
      intro unnamed
      rw [cutName, unnamed] at inhabited
      simp [segments] at inhabited
    simp [placeOf, named, cutName]
  · rename_i uncut
    have dotless := Text.not_mem_of_splitLast_eq_none uncut
    simp [placeOf, segments, List.splitOn_eq_singleton dotless]

end Typedef

end ApiAssembly
