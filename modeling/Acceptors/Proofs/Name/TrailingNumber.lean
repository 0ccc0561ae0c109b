import Acceptors.Proofs.Numbering
import Mathlib.Data.List.TakeWhile
import Mathlib.Data.Nat.Digits.Defs

/-! The number at the end of a name. It is written with the longest run of decimal digits there, which
may begin with zeros. A name has no number if that run is empty, or if its value reaches the limit of
counters. -/
namespace Acceptors.Name

variable {name stem digits : String} {text : List Char}

/-! The value of a run of digits. -/

/-- The value of decimal digits by position: the last counts once, the one before it ten times, and so
on. -/
def decimalValue (digits : String) : Nat :=
  Nat.ofDigits 10 (digits.toList.reverse.map fun c => c.toNat - '0'.toNat)

/-- To read digits from the left, each with ten times what has been read, gives their value. -/
theorem ofDigitChars_eq_ofDigits (text : List Char) :
    Nat.ofDigitChars 10 text 0 =
      Nat.ofDigits 10 (text.reverse.map fun c => c.toNat - '0'.toNat) := by
  induction text with
  | nil => rfl
  | cons c text ih =>
      rw [Nat.ofDigitChars_cons, Nat.ofDigitChars_eq_ofDigitChars_zero, ih, List.reverse_cons,
        List.map_append, Nat.ofDigits_append, List.map_singleton, Nat.ofDigits_singleton,
        List.length_map, List.length_reverse, Nat.mul_zero, Nat.zero_add, Nat.add_comm]

theorem decimalValue_toString (number : Nat) : decimalValue (toString number) = number := by
  rw [decimalValue, ← ofDigitChars_eq_ofDigits, ofDigitChars_toString]

/-- Each digit takes one byte. -/
theorem utf8ByteSize_ofList_of_isDigit (hText : ∀ c ∈ text, c.isDigit = true) :
    (String.ofList text).utf8ByteSize = text.length := by
  induction text with
  | nil => rfl
  | cons c text ih =>
      rw [List.forall_mem_cons] at hText
      have hByte : c.utf8Size = 1 := by
        rw [Char.utf8Size_eq_one_iff, UInt32.le_iff_toNat_le]
        exact Nat.le_trans (Char.isDigit_iff_toNat.mp hText.1).2 (by decide)
      rw [String.ofList_cons, String.utf8ByteSize_append, String.utf8ByteSize_singleton, hByte,
        ih hText.2, List.length_cons, Nat.add_comm]

/-! The longest run of digits. -/

/-- A name is a stem and the longest run of decimal digits that it ends with. -/
structure Splits (name stem digits : String) : Prop where
  eq_append : name = stem ++ digits
  isDigit : ∀ c ∈ digits.toList, c.isDigit = true
  longest : ∀ before other, name = before ++ other → (∀ c ∈ other.toList, c.isDigit = true) →
    other.length ≤ digits.length

theorem splits_trailingDigits (name : String) :
    Splits name (String.ofList (stemChars name.toList))
      (String.ofList (trailingDigits name.toList)) where
  eq_append := by
    rw [← String.ofList_append, stemChars_append_trailingDigits, String.ofList_toList]
  isDigit := by
    intro c hc
    rw [String.toList_ofList, trailingDigits, List.mem_reverse] at hc
    exact List.mem_takeWhile_imp hc
  longest := by
    rintro before other rfl hOther
    rw [String.length_ofList, String.toList_append, trailingDigits_append hOther, List.length_append,
      String.length_toList]
    exact Nat.le_add_left _ _

/-- There is one way to split a name. -/
theorem Splits.unique {stem' digits' : String} (hSplit : Splits name stem digits)
    (hOther : Splits name stem' digits') : stem = stem' ∧ digits = digits' := by
  have hLength : digits.length = digits'.length :=
    Nat.le_antisymm (hOther.longest _ _ hSplit.eq_append hSplit.isDigit)
      (hSplit.longest _ _ hOther.eq_append hOther.isDigit)
  have hAppend : stem.toList ++ digits.toList = stem'.toList ++ digits'.toList := by
    rw [← String.toList_append, ← String.toList_append, ← hSplit.eq_append, hOther.eq_append]
  rw [← String.toList_inj, ← String.toList_inj]
  exact List.append_inj' hAppend (by rwa [String.length_toList, String.length_toList])

/-- The run of digits at the end is empty exactly if the last character is no digit. -/
theorem unnumbered_iff : Unnumbered stem ↔ ∀ c ∈ stem.toList.getLast?, c.isDigit = false := by
  rw [Unnumbered, trailingDigits, List.reverse_eq_nil_iff, ← List.head?_eq_none_iff,
    List.head?_takeWhile, List.head?_reverse, Option.filter_eq_none_iff]
  simp

/-- Digits behind a stem that does not end in one are the longest run. -/
theorem Unnumbered.splits_append (hStem : Unnumbered stem)
    (hDigits : ∀ c ∈ digits.toList, c.isDigit = true) : Splits (stem ++ digits) stem digits := by
  have hSplit := splits_trailingDigits (stem ++ digits)
  rwa [String.toList_append, stemChars_append hDigits, trailingDigits_append hDigits,
    hStem.stemChars_eq, hStem, List.nil_append, String.ofList_toList, String.ofList_toList] at hSplit

theorem Splits.utf8ByteSize_eq (hSplit : Splits name stem digits) :
    name.utf8ByteSize = stem.utf8ByteSize + digits.length := by
  have hDigits : digits.utf8ByteSize = digits.length := by
    rw [← String.length_toList, ← utf8ByteSize_ofList_of_isDigit hSplit.isDigit, String.ofList_toList]
  rw [hSplit.eq_append, String.utf8ByteSize_append, hDigits]

/-- The digits of a name are its number, if there are any and their value is below the limit. -/
theorem Splits.splitNumber_eq (hSplit : Splits name stem digits) :
    splitNumber name = if digits ≠ "" ∧ decimalValue digits < counterLimit
      then (stem, some (decimalValue digits)) else (name, none) := by
  obtain ⟨rfl, rfl⟩ := hSplit.unique (splits_trailingDigits name)
  rw [splitNumber, decimalValue, String.toList_ofList, ← ofDigitChars_eq_ofDigits]
  simp only [ne_eq, String.ofList_eq_empty_iff, ← not_le, ← not_or, ite_not]

/-- A name is split behind the last character that is not a digit, as many bytes before its end as it
has digits there. These are its number, unless there are none or their value reaches the limit; then
the whole name is the stem. So a stem that does not end in a digit and a number below the limit are
read back from the name that is made of them. -/
theorem splitNumber_exact :
    (∀ name, ∃ stem digits, Splits name stem digits) ∧
    (∀ name stem digits, Splits name stem digits →
      name.utf8ByteSize = stem.utf8ByteSize + digits.length ∧
      splitNumber name = if digits ≠ "" ∧ decimalValue digits < counterLimit
        then (stem, some (decimalValue digits)) else (name, none)) ∧
    ∀ stem number, (∀ c ∈ stem.toList.getLast?, c.isDigit = false) → number < counterLimit →
      splitNumber (stem ++ toString number) = (stem, some number) := by
  refine ⟨fun name => ⟨_, _, splits_trailingDigits name⟩, ?_, ?_⟩
  · intro name stem digits hSplit
    exact ⟨hSplit.utf8ByteSize_eq, hSplit.splitNumber_eq⟩
  · intro stem number hStem hNumber
    have hSplit : Splits (stem ++ toString number) stem (toString number) :=
      (unnumbered_iff.mpr hStem).splits_append isDigit_of_mem_toString
    have hDigits : toString number ≠ "" := Nat.repr_ne_empty
    rw [hSplit.splitNumber_eq, decimalValue_toString, if_pos ⟨hDigits, hNumber⟩]

/-- A full-width three is no decimal digit. Leading zeros do not add to the value, and the limit of counters
is itself no counter. -/
theorem splitNumber_exact_largest :
    splitNumber ("q３" ++ "00018446744073709551615") = ("q３", some 18446744073709551615) ∧
      splitNumber ("q３" ++ "18446744073709551616") = ("q３" ++ "18446744073709551616", none) ∧
      splitNumber ("q３" ++ toString 18446744073709551615) = ("q３", some 18446744073709551615) := by
  have hStem : Unnumbered "q３" := (by decide : trailingDigits "q３".toList = [])
  have hZeros := List.all_eq_true.mp (by decide : "00018446744073709551615".toList.all Char.isDigit)
  have hLimit := List.all_eq_true.mp (by decide : "18446744073709551616".toList.all Char.isDigit)
  obtain ⟨_, hExact, hRead⟩ := splitNumber_exact
  refine ⟨?_, ?_, hRead _ _ (unnumbered_iff.mp hStem) (by decide)⟩
  · exact (hExact _ _ _ (hStem.splits_append hZeros)).2
  · exact (hExact _ _ _ (hStem.splits_append hLimit)).2

end Acceptors.Name
