import ApiAssembly.Json.Reader
import ApiAssembly.Proofs.Decimal.Finite
import ApiAssembly.Proofs.Value.Fitting

/-!
# What is read from JSON

The numbers of a JSON text fit, and of members with the same key one is left, so the value of
a text can be held by any document.
-/

namespace ApiAssembly.Json

open Decimal (Binary64 digitsValue)

section Numbers

variable {negative : Bool} {significand : Nat} {exponent : Int} {digits rest text : List Char}
  {number : Number}

theorem gather_le (digits : List Char) {significand : Nat} (small : significand ≤ largestWord) :
    (gather significand digits).1 ≤ largestWord := by
  induction digits generalizing significand with
  | nil => exact small
  | cons digit digits ih =>
      rw [gather]
      split
      · exact small
      · exact ih (by omega)

/-- Dividing by a power of ten within the range. -/
theorem isFinite_div_power {x : Binary64} (finite : x.isFinite = true) (positive : 0 < exponent)
    (small : exponent ≤ 308) : (x.div (.ofDecimal false 1 exponent)).isFinite = true := by
  obtain ⟨count, rfl⟩ := Int.eq_ofNat_of_zero_le positive.le
  obtain ⟨before, rfl⟩ := Nat.exists_eq_add_of_le' (by omega : 1 ≤ count)
  exact Binary64.isFinite_div finite (Binary64.two_le_power before (by omega))

theorem isFinite_scaleByTen (steps : Nat) {x scaled : Binary64} (finite : x.isFinite = true)
    (found : scaleByTen steps x exponent = some scaled) : scaled.isFinite = true := by
  induction steps generalizing x exponent with
  | zero =>
      cases found
      exact Binary64.isFinite_zero false
  | succ steps ih =>
      rw [scaleByTen] at found
      split at found
      · cases found
        exact finite
      · split at found
        · split at found
          · cases found
          · simp only at found
            split at found
            next fits =>
              cases found
              exact fits
            next => cases found
        · split at found
          · cases found
            exact isFinite_div_power finite (by omega) (by omega)
          · exact ih (isFinite_div_power finite (by decide) (by decide)) found

theorem fits_of_floatOf? (small : significand ≤ largestWord)
    (found : floatOf? negative significand exponent = some number) : number.Fits := by
  obtain ⟨x, scaled, rfl⟩ := Option.map_eq_some_iff.mp found
  have below : significand < 10 ^ 20 := small.trans_lt (by decide)
  have finite := isFinite_scaleByTen 3 (Binary64.isFinite_ofDecimal below) scaled
  cases negative with
  | true => exact Binary64.isFinite_neg finite
  | false => exact finite

theorem fits_of_wholeOf? (found : wholeOf? negative digits = some number) : number.Fits := by
  have gathered := @gather_le digits 0 (Nat.zero_le _)
  simp only [wholeOf?] at found
  split at found
  · split at found
    · cases found
      exact Binary64.isFinite_zero true
    · split at found
      next small =>
        cases found
        rw [largestNegated] at small
        exact ⟨by omega, by omega⟩
      next => exact fits_of_floatOf? gathered found
  · split at found
    next small =>
      cases found
      rw [largestWord] at small
      exact ⟨by omega, by omega⟩
    next => exact fits_of_floatOf? gathered found

theorem fits_of_readUnsigned? (found : readUnsigned? negative text = some (number, rest)) :
    number.Fits := by
  simp only [readUnsigned?] at found
  split at found
  · cases found
  · obtain ⟨⟨fraction, afterFraction⟩, -, found⟩ := Option.bind_eq_some_iff.mp found
    obtain ⟨⟨exponent, after⟩, -, found⟩ := Option.bind_eq_some_iff.mp found
    split at found
    · obtain ⟨whole, read, same⟩ := Option.bind_eq_some_iff.mp found
      cases same
      exact fits_of_wholeOf? read
    · obtain ⟨float, read, same⟩ := Option.bind_eq_some_iff.mp found
      cases same
      exact fits_of_floatOf? (gather_le fraction (gather_le _ (Nat.zero_le _))) read

theorem fits_of_readNumber? (found : readNumber? text = some (number, rest)) : number.Fits := by
  rw [readNumber?.eq_def] at found
  split at found
  · exact fits_of_readUnsigned? found
  · exact fits_of_readUnsigned? found

end Numbers

section Values

variable {fuel levels : Nat} {text rest : List Char} {value : Value}

theorem isData_of_readPlain? (found : readPlain? text = some (value, rest)) : value.IsData := by
  rw [readPlain?.eq_def] at found
  split at found
  · cases found
    exact ⟨.null, .null⟩
  · cases found
    exact ⟨.bool _, .bool _⟩
  · cases found
    exact ⟨.bool _, .bool _⟩
  · obtain ⟨⟨number, after⟩, read, same⟩ := Option.map_eq_some_iff.mp found
    cases same
    exact ⟨.number _, .number (fits_of_readNumber? read)⟩

/-- The values that are read with a number of steps are data, and so are items and members. -/
structure ReadsData (fuel : Nat) : Prop where
  value {levels : Nat} {text rest : List Char} {value : Value}
    (found : readValue? fuel levels text = some (value, rest)) : value.IsData
  items {levels : Nat} {text rest : List Char} {items : List Value}
    (found : readItems? fuel levels text = some (items, rest)) : ∀ item ∈ items, item.IsData
  members {levels : Nat} {text rest : List Char} {before members : Members}
    (data : (Value.object before).IsData)
    (found : readMembers? fuel levels before text = some (members, rest)) :
    (Value.object members).IsData

theorem isData_empty : (Value.object []).IsData :=
  ⟨.object List.nodup_nil (by simp), .object (by simp)⟩

theorem ReadsData.nextValue (reads : ReadsData fuel)
    (found : readValue? (fuel + 1) levels text = some (value, rest)) : value.IsData := by
  rw [readValue?.eq_def] at found
  simp only at found
  split at found
  · obtain ⟨⟨content, after⟩, -, same⟩ := Option.bind_eq_some_iff.mp found
    cases same
    exact ⟨.string _, .string _⟩
  · split at found
    · cases found
    · split at found
      · cases found
        exact Value.isData_array (by simp)
      · obtain ⟨⟨items, after⟩, read, same⟩ := Option.bind_eq_some_iff.mp found
        cases same
        exact Value.isData_array (reads.items read)
  · split at found
    · cases found
    · split at found
      · cases found
        exact isData_empty
      · obtain ⟨⟨members, after⟩, read, same⟩ := Option.bind_eq_some_iff.mp found
        cases same
        exact reads.members isData_empty read
  · exact isData_of_readPlain? found

theorem ReadsData.nextItems (reads : ReadsData fuel) {items : List Value}
    (found : readItems? (fuel + 1) levels text = some (items, rest)) :
    ∀ item ∈ items, item.IsData := by
  rw [readItems?] at found
  obtain ⟨⟨item, after⟩, first, found⟩ := Option.bind_eq_some_iff.mp found
  simp only at found
  split at found
  · obtain ⟨⟨later, end_⟩, read, same⟩ := Option.bind_eq_some_iff.mp found
    cases same
    exact List.forall_mem_cons.mpr ⟨reads.value first, reads.items read⟩
  · cases found
    exact List.forall_mem_singleton.mpr (reads.value first)
  · cases found

theorem ReadsData.nextMembers (reads : ReadsData fuel) {before members : Members}
    (data : (Value.object before).IsData)
    (found : readMembers? (fuel + 1) levels before text = some (members, rest)) :
    (Value.object members).IsData := by
  rw [readMembers?.eq_def] at found
  simp only at found
  split at found
  · obtain ⟨⟨key, afterKey⟩, -, found⟩ := Option.bind_eq_some_iff.mp found
    simp only at found
    split at found
    · obtain ⟨⟨value, after⟩, read, found⟩ := Option.bind_eq_some_iff.mp found
      have stored := data.put (reads.value read) (String.ofList key)
      simp only at found
      split at found
      · exact reads.members stored found
      · cases found
        exact stored
      · cases found
    · cases found
  · cases found

theorem readsData (fuel : Nat) : ReadsData fuel := by
  induction fuel with
  | zero =>
      refine ⟨fun found => ?_, fun found => ?_, fun _ found => ?_⟩
      · rw [readValue?] at found
        cases found
      · rw [readItems?] at found
        cases found
      · rw [readMembers?] at found
        cases found
  | succ fuel reads => exact ⟨reads.nextValue, reads.nextItems, reads.nextMembers⟩

/-- What a JSON text holds is data. -/
theorem isData_of_read? {text : String} (found : read? text = some value) : value.IsData := by
  obtain ⟨⟨read, after⟩, reads, found⟩ := Option.bind_eq_some_iff.mp found
  simp only at found
  split at found
  · cases found
    exact (readsData _).value reads
  · cases found

end Values

end ApiAssembly.Json
