import ApiAssembly.Proofs.Value.Extent
import ApiAssembly.Proofs.Value.Merging

/-!
# Numbers that fit

Storing and merging values brings no new numbers: the numbers within the result fit if those
within the parts do.
-/

namespace ApiAssembly.Value

variable {members : Members} {value : Value} {key : String}

theorem NumbersFit.elements (fit : value.NumbersFit) {element : Value}
    (member : element ∈ value.elements) : element.NumbersFit := by
  cases value with
  | array items => exact fit.item member
  | _ => exact List.mem_singleton.mp member ▸ fit

mutual

theorem numbersFit_combine (incoming : Value) {present : Value} (presentFit : present.NumbersFit)
    (incomingFit : incoming.NumbersFit) : (combine present incoming).NumbersFit := by
  cases present with
  | array items =>
      rw [combine_array, collect_eq]
      refine .array fun item member => ?_
      rcases List.mem_append.mp member with old | new
      · exact presentFit.item old
      · exact incomingFit.elements (mem_of_mem_newElements new)
  | object members =>
      match incoming with
      | .object source =>
          rw [combine_object]
          exact numbersFit_mergeMembers source presentFit incomingFit
      | .null | .bool _ | .number _ | .string _ | .array _ =>
          rwa [combine_object_of_object?_eq_none members rfl]
  | _ => rwa [combine_scalar (by simp) (by simp)]

theorem numbersFit_mergeMembers (source : List (String × Value)) {target : Members}
    (targetFit : (object target).NumbersFit) (sourceFit : (object source).NumbersFit) :
    (object (mergeMembers target source)).NumbersFit :=
  match source with
  | [] => by rwa [mergeMembers_nil]
  | (key, incoming) :: source => by
      have first := sourceFit.member List.mem_cons_self
      have later : (object source).NumbersFit :=
        .object fun other inside => sourceFit.member (List.mem_cons_of_mem _ inside)
      rw [mergeMembers_cons]
      refine numbersFit_mergeMembers source (.object (Entries.forall_mem_put
        (fun _ inside => targetFit.member inside) ?_)) later
      cases found : Entries.get? key target with
      | none => exact first
      | some present =>
          exact numbersFit_combine incoming (targetFit.member (Entries.mem_of_get? found)) first

end

section Data

theorem isData_object_iff : (object members).IsData ↔
    (Entries.keys members).Nodup ∧ ∀ member ∈ members, member.2.IsData := by
  constructor
  · intro data
    exact ⟨data.wellKeyed.distinct,
      fun _ inside => ⟨data.wellKeyed.each inside, data.fit.member inside⟩⟩
  · rintro ⟨distinct, each⟩
    exact ⟨.object distinct fun member inside => (each member inside).wellKeyed,
      .object fun member inside => (each member inside).fit⟩

theorem IsData.put (data : (object members).IsData) (valueData : value.IsData) (key : String) :
    (object (Entries.put key value members)).IsData := by
  rw [isData_object_iff] at data ⊢
  exact ⟨Entries.nodup_keys_put data.1 value, Entries.forall_mem_put data.2 valueData⟩

theorem IsData.update {change : Value → Value} (data : (object members).IsData)
    (kept : ∀ value, value.IsData → (change value).IsData) (key : String) :
    (object (Entries.update key change members)).IsData := by
  rw [isData_object_iff] at data ⊢
  rw [Entries.keys_update]
  exact ⟨data.1, Entries.forall_mem_update data.2 kept⟩

theorem IsData.combine {present incoming : Value} (presentData : present.IsData)
    (incomingData : incoming.IsData) : (Value.combine present incoming).IsData :=
  ⟨wellKeyed_combine presentData.wellKeyed incomingData.wellKeyed,
    numbersFit_combine incoming presentData.fit incomingData.fit⟩

theorem IsData.mergeAll {target : Members} (data : (object target).IsData) {sources : List Members}
    (each : ∀ source ∈ sources, (object source).IsData) :
    (object (Value.mergeAll target sources)).IsData := by
  induction sources generalizing target with
  | nil => exact data
  | cons source sources ih =>
      rw [List.forall_mem_cons] at each
      have first := data.combine each.1
      rw [combine_object] at first
      exact ih first each.2

end Data

end ApiAssembly.Value
