import ApiAssembly.Proofs.Document.Data
import ApiAssembly.Proofs.Yaml.RoundTrip
import Mathlib.Data.List.Permutation

/-!
# Reading a built document again

A built document that has been written as YAML is read back as it was, key order included, as
long as no mapping in it has the key `<<`.  A mapping with that key is never read back: reading
puts the entries of what stands under the key in its place.
-/

namespace ApiAssembly.Document

/-- A built document is a mapping with a version and a title. -/
theorem exists_document {contributions : List Contribution}
    (each : ∀ contribution ∈ contributions, contribution.IsData) :
    ∃ members : Members, members ≠ [] ∧ (assemble contributions).document = .object members := by
  have sound : (Collection.ofContributions contributions).Sound := by
    refine sound_ofContributions fun contribution member => ?_
    have data := each contribution member
    cases contribution with
    | fragment members => exact data.wellKeyed
    | _ => trivial
  refine ⟨(Collection.ofContributions contributions).resolution.document, ?_, rfl⟩
  rw [sound.document_eq]
  simp [seed]

/-- A written document is read back exactly if no mapping in it has a key for merging. -/
theorem read?_write_assemble {contributions : List Contribution}
    (each : ∀ contribution ∈ contributions, contribution.IsData)
    (within : (assemble contributions).document.depth ≤ 127) :
    Yaml.read? (Yaml.write (assemble contributions).document) =
        some (assemble contributions).document ↔
      (assemble contributions).document.mentions "<<" = false := by
  have data := isData_assemble each
  obtain ⟨members, inhabited, document⟩ := exists_document each
  rw [document] at data within ⊢
  constructor
  · intro same
    by_contra mentioned
    rw [Bool.not_eq_false] at mentioned
    exact Yaml.read?_write_ne inhabited within data.wellKeyed data.fit mentioned same
  · exact Yaml.read?_write inhabited within data.wellKeyed data.fit

/-- A fragment with texts and keys that look like other things and with a floating-point number,
and a model with texts that need quotes or breaks. -/
def awkwardContributions : List Contribution :=
  [.info ⟨"yes: no", "1.0"⟩,
    .fragment [("paths", .object [("200", .null), ("- a", .string " two\nlines\n"),
      ("null", .array [.string "null", .number (.float ⟨0x3ff8000000000000⟩)]),
      ("", .object [("$ref", .string "#/components/schemas/T")])])],
    .comments "/** T's */",
    .model "T" (.object [("enum", .array [.string "~", .string "\t", .string "\n\n "]),
      ("? [", .array []), ("#", .object [("'", .bool true)])])]

def awkwardDocument : Members :=
  [("openapi", .string "3.0.0"),
    ("info", .object [("title", .string "yes: no"), ("version", .string "1.0")]),
    ("paths", .object [("200", .null), ("- a", .string " two\nlines\n"),
      ("null", .array [.string "null", .number (.float ⟨0x3ff8000000000000⟩)]),
      ("", .object [("$ref", .string "#/components/schemas/T")])]),
    ("components", .object [("schemas", .object [("T",
      .object [("enum", .array [.string "~", .string "\t", .string "\n\n "]),
        ("? [", .array []), ("#", .object [("'", .bool true)])])])])]

theorem document_awkwardContributions :
    (assemble awkwardContributions).document = .object awkwardDocument := by
  cbv

/-- The awkward document is read back. -/
theorem read?_write_awkwardDocument :
    (∀ contribution ∈ awkwardContributions, contribution.IsData) ∧
      (Value.object awkwardDocument).depth ≤ 127 ∧
      Yaml.read? (Yaml.write (.object awkwardDocument)) = some (.object awkwardDocument) := by
  have each : ∀ contribution ∈ awkwardContributions, contribution.IsData := by decide
  have within : (Value.object awkwardDocument).depth ≤ 127 := by decide
  have absent : (Value.object awkwardDocument).mentions "<<" = false := by decide
  refine ⟨each, within, ?_⟩
  have document := document_awkwardContributions
  rw [← document] at within absent ⊢
  exact (read?_write_assemble each within).mpr absent

/-- A fragment in which a path is called like a key for merging. -/
def mergingContributions : List Contribution :=
  [.fragment [("paths", .object [("<<", .object [("/a", .null)]), ("/b", .null)])]]

/-- The document of the merging contributions is read without the mapping under the key. -/
theorem read?_write_mergingContributions :
    (∀ contribution ∈ mergingContributions, contribution.IsData) ∧
      (assemble mergingContributions).document.depth ≤ 127 ∧
      (assemble mergingContributions).document = .object (seed {} ++
        [("paths", .object [("<<", .object [("/a", .null)]), ("/b", .null)])]) ∧
      Yaml.read? (Yaml.write (assemble mergingContributions).document) =
        some (.object (seed {} ++ [("paths", .object [("/b", .null), ("/a", .null)])])) ∧
      Yaml.read? (Yaml.write (assemble mergingContributions).document) ≠
        some (assemble mergingContributions).document := by
  have each : ∀ contribution ∈ mergingContributions, contribution.IsData := by decide
  have document : (assemble mergingContributions).document = .object (seed {} ++
      [("paths", .object [("<<", .object [("/a", .null)]), ("/b", .null)])]) := by
    cbv
  have data := isData_assemble each
  rw [document] at data ⊢
  have within : (Value.object (seed {} ++
      [("paths", .object [("<<", .object [("/a", .null)]), ("/b", .null)])])).depth ≤ 127 := by
    decide
  have read : Yaml.read? (Yaml.write (.object (seed {} ++
      [("paths", .object [("<<", .object [("/a", .null)]), ("/b", .null)])]))) =
        some (.object (seed {} ++ [("paths", .object [("/b", .null), ("/a", .null)])])) := by
    rw [Yaml.read?, Yaml.readNode_write (by simp [seed]) within data.wellKeyed data.fit]
    rfl
  exact ⟨each, within, rfl, read, read ▸ by simp [seed]⟩

end ApiAssembly.Document
