import Acceptors.Name
import Acceptors.Proofs.Sorted.Lemmas

/-! Fresh names are not in use, and names given one after another are different. -/
namespace Acceptors.Name

/-- Decimal digits are read back as the number that they write. -/
theorem ofDigitChars_toString (number : Nat) :
    Nat.ofDigitChars 10 (toString number).toList 0 = number := by
  change Nat.ofDigitChars 10 (String.ofList (Nat.toDigits 10 number)).toList 0 = number
  rw [String.toList_ofList]
  exact Nat.ofDigitChars_toDigits (by omega) (by omega)

theorem numbered_injective (stem : String) : Function.Injective (numbered stem) := by
  intro m n hEq
  rw [numbered, numbered, String.append_right_inj] at hEq
  rw [← ofDigitChars_toString m, hEq, ofDigitChars_toString]

/-- A name that the search finds is not in use. -/
theorem not_mem_of_firstFree? {taken : SortedSet String} {stem name : String}
    {start count : Nat} (hFound : firstFree? taken stem start count = some name) :
    name ∉ taken := by
  obtain ⟨number, hNumber, rfl⟩ := Option.map_eq_some_iff.mp hFound
  simpa using List.find?_some hNumber

/-- A search that finds nothing has found all its candidates in use. -/
theorem mem_of_firstFree?_eq_none {taken : SortedSet String} {stem : String} {start count : Nat}
    (hNone : firstFree? taken stem start count = none) :
    ∀ name ∈ (List.range' start count).map (numbered stem), name ∈ taken := by
  rw [firstFree?, Option.map_eq_none_iff, List.find?_eq_none] at hNone
  rw [List.forall_mem_map]
  simpa using hNone

theorem nodup_map_numbered (stem : String) (start count : Nat) :
    ((List.range' start count).map (numbered stem)).Nodup :=
  (List.nodup_range' 1).map (numbered_injective stem)

/-- A search finds a name if its candidates, together with others that are in use, are more than the
names in use. -/
theorem isSome_firstFree?_of_others {taken : SortedSet String} {stem : String} {start count : Nat}
    {others : List String} (hOthers : ∀ name ∈ others, name ∈ taken)
    (hNodup : (others ++ (List.range' start count).map (numbered stem)).Nodup)
    (hCount : taken.size < others.length + count) :
    (firstFree? taken stem start count).isSome = true := by
  by_contra hNone
  rw [Bool.not_eq_true, Option.isSome_eq_false_iff, Option.isNone_iff_eq_none] at hNone
  have hLength := SortedSet.length_le_size hNodup
    (List.forall_mem_append.mpr ⟨hOthers, mem_of_firstFree?_eq_none hNone⟩)
  rw [List.length_append, List.length_map, List.length_range'] at hLength
  omega

/-- Of more candidates than names in use, one is free. -/
theorem isSome_firstFree? {taken : SortedSet String} {stem : String} {start count : Nat}
    (hCount : taken.size < count) : (firstFree? taken stem start count).isSome = true := by
  apply isSome_firstFree?_of_others (List.forall_mem_nil _) (nodup_map_numbered stem start count)
  rwa [List.length_nil, Nat.zero_add]

/-- A fresh name is never in use, however many names are. -/
theorem fresh_not_mem (taken : SortedSet String) (base : String) : fresh taken base ∉ taken := by
  rw [fresh]
  split
  · have hLast : (firstFree? taken base 1 (taken.size + 1)).isSome = true :=
      isSome_firstFree? (Nat.lt_succ_self _)
    obtain ⟨last, hLast⟩ := Option.isSome_iff_exists.mp hLast
    dsimp only
    rw [hLast]
    cases hFirst : firstFree? taken (splitNumber base).1 ((splitNumber base).2.getD 0 + 1)
        (min (taken.size + 1) (counterLimit - ((splitNumber base).2.getD 0 + 1))) with
    | some name => exact not_mem_of_firstFree? hFirst
    | none => exact not_mem_of_firstFree? hLast
  · assumption

@[simp] theorem length_freshAll (taken : SortedSet String) (bases : List String) :
    (freshAll taken bases).length = bases.length := by
  induction bases generalizing taken with
  | nil => rfl
  | cons base bases ih => rw [freshAll, List.length_cons, ih, List.length_cons]

theorem not_mem_of_mem_freshAll {taken : SortedSet String} {bases : List String} {name : String}
    (hName : name ∈ freshAll taken bases) : name ∉ taken := by
  induction bases generalizing taken with
  | nil => cases hName
  | cons base bases ih =>
      rcases List.mem_cons.mp hName with rfl | hName
      · exact fresh_not_mem taken base
      · intro hTaken
        exact ih hName (SortedSet.mem_insert.mpr (Or.inr hTaken))

/-- Names that are given one after another are different. -/
theorem nodup_freshAll (taken : SortedSet String) (bases : List String) :
    (freshAll taken bases).Nodup := by
  induction bases generalizing taken with
  | nil => exact List.nodup_nil
  | cons base bases ih =>
      rw [freshAll, List.nodup_cons]
      have hNew : fresh taken base ∉ freshAll (taken.insert (fresh taken base)) bases := by
        intro hAgain
        exact not_mem_of_mem_freshAll hAgain (SortedSet.mem_insert.mpr (Or.inl rfl))
      exact ⟨hNew, ih _⟩

section Naming

variable {α : Type} [DecidableEq α] {items : List α} {names : List String}

/-- A list of items that is paired with as many names names each of them. -/
theorem exists_lookup_zip (hLength : items.length ≤ names.length) {a : α} (ha : a ∈ items) :
    ∃ name ∈ names, (items.zip names).lookup a = some name := by
  rw [← List.map_fst_zip hLength, List.mem_map] at ha
  obtain ⟨⟨b, name⟩, hIn, rfl⟩ := ha
  obtain ⟨found, hFound⟩ := exists_lookup_of_mem hIn
  exact ⟨found, (List.of_mem_zip (mem_of_lookup_eq_some hFound)).2, hFound⟩

/-- Of items that do not repeat, each is named by the name that stands beside it. -/
theorem lookup_zip_eq_some (hNodup : items.Nodup) {a : α} {name : String} {i : Nat}
    (hItem : items[i]? = some a) (hName : names[i]? = some name) :
    (items.zip names).lookup a = some name := by
  have hFunctional : ∀ a v w, (a, v) ∈ items.zip names → (a, w) ∈ items.zip names → v = w := by
    intro a v w hv hw
    obtain ⟨j, hj, hjv⟩ := List.mem_iff_getElem.mp hv
    obtain ⟨k, hk, hkw⟩ := List.mem_iff_getElem.mp hw
    rw [List.getElem_zip, Prod.mk.injEq] at hjv hkw
    have hSame : j = k := (hNodup.getElem_inj_iff).mp (hjv.1.trans hkw.1.symm)
    subst hSame
    exact hjv.2.symm.trans hkw.2
  rw [lookup_eq_some_iff_of_functional hFunctional, List.mem_iff_getElem?]
  exact ⟨i, List.getElem?_zip_eq_some.mpr ⟨hItem, hName⟩⟩

/-- Where no name occurs twice, no two items have the same name. -/
theorem eq_of_lookup_zip (hNodup : names.Nodup) {a b : α} {name : String}
    (ha : (items.zip names).lookup a = some name) (hb : (items.zip names).lookup b = some name) :
    a = b := by
  obtain ⟨i, hi, hia⟩ := List.mem_iff_getElem.mp (mem_of_lookup_eq_some ha)
  obtain ⟨j, hj, hjb⟩ := List.mem_iff_getElem.mp (mem_of_lookup_eq_some hb)
  rw [List.getElem_zip, Prod.mk.injEq] at hia hjb
  have hSame : i = j := (hNodup.getElem_inj_iff).mp (hia.2.trans hjb.2.symm)
  subst hSame
  exact hia.1.symm.trans hjb.1

end Naming

end Acceptors.Name
