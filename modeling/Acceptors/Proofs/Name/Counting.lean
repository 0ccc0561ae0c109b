import Acceptors.Proofs.Name

/-! The loop that looks for a free name. It counts the number at the end of a base upward, and when the
numbers for the stem run out, it counts the whole base from one. The counter is reset there, so that
its growth does not end the loop. It ends because the names that are made of the whole base are
different from each other and from the base, and with it they are more than the names in use. -/
namespace Acceptors.Name

variable {taken : SortedSet String} {base stem name : String} {start number count more : Nat}
  {bases names : List String}

/-! Searches among consecutive numbers. -/

theorem numbered_ne_self (stem : String) (number : Nat) : numbered stem number ≠ stem := by
  intro hSame
  have hEmpty : toString number = "" := by
    rwa [numbered, ← String.toList_inj, String.toList_append, List.append_right_eq_self,
      String.toList_eq_nil_iff] at hSame
  exact Nat.repr_ne_empty hEmpty

/-- A base in use is not made of itself and a number, so that as many candidates as there are names in
use are enough. -/
theorem isSome_firstFree?_of_mem (hBase : base ∈ taken) (hCount : taken.size ≤ count) :
    (firstFree? taken base start count).isSome = true := by
  have hNew : base ∉ (List.range' start count).map (numbered base) := by
    intro hSame
    obtain ⟨number, _, hSame⟩ := List.mem_map.mp hSame
    exact numbered_ne_self base number hSame
  apply isSome_firstFree?_of_others (List.forall_mem_singleton.mpr hBase)
    (List.nodup_cons.mpr ⟨hNew, nodup_map_numbered base start count⟩)
  rw [List.length_singleton]
  omega

theorem firstFree?_mono (hFound : firstFree? taken stem start count = some name)
    (hMore : count ≤ more) : firstFree? taken stem start more = some name := by
  obtain ⟨extra, rfl⟩ := Nat.exists_eq_add_of_le hMore
  rw [firstFree?, ← List.range'_append_1, List.find?_append, Option.map_or, ← firstFree?, hFound,
    Option.some_or]

/-- A search need not look at more candidates than there are names in use, and one. -/
theorem firstFree?_min :
    firstFree? taken stem start (min (taken.size + 1) count) =
      firstFree? taken stem start count := by
  rcases Nat.le_total count (taken.size + 1) with hFew | hMany
  · rw [Nat.min_eq_right hFew]
  · have hSome : (firstFree? taken stem start (taken.size + 1)).isSome = true :=
      isSome_firstFree? (Nat.lt_succ_self _)
    obtain ⟨name, hFound⟩ := Option.isSome_iff_exists.mp hSome
    rw [Nat.min_eq_left hMany, hFound, firstFree?_mono hFound hMany]

/-! The candidates for a name. -/

/-- The names that are made of a stem and a number from `start` up, as long as there are counters. -/
def numberedFrom (stem : String) (start : Nat) : List String :=
  (List.range' start (counterLimit - start)).map (numbered stem)

/-- The candidates for a base, in the order in which they are tried: the base, the names that are made
of its stem and the numbers after its own, and the names that are made of the whole base and the
numbers from one. -/
def candidates (base : String) : List String :=
  base :: (numberedFrom (splitNumber base).1 ((splitNumber base).2.getD 0 + 1) ++ numberedFrom base 1)

def firstUnused? (taken : SortedSet String) (names : List String) : Option String :=
  names.find? fun name => decide (name ∉ taken)

theorem firstUnused?_numberedFrom : firstUnused? taken (numberedFrom stem start) =
    firstFree? taken stem start (counterLimit - start) := by
  rw [firstUnused?, numberedFrom, List.find?_map]
  rfl

/-- Among the counters there is always one for the whole base. -/
theorem firstUnused?_numberedFrom_one (hSize : taken.size < counterLimit) (hBase : base ∈ taken) :
    firstUnused? taken (numberedFrom base 1) = firstFree? taken base 1 (taken.size + 1) ∧
      (firstUnused? taken (numberedFrom base 1)).isSome = true := by
  have hSome : (firstFree? taken base 1 taken.size).isSome = true :=
    isSome_firstFree?_of_mem hBase (Nat.le_refl _)
  obtain ⟨name, hFound⟩ := Option.isSome_iff_exists.mp hSome
  rw [firstUnused?_numberedFrom, firstFree?_mono hFound (Nat.le_sub_one_of_lt hSize),
    firstFree?_mono hFound (Nat.le_succ _)]
  exact ⟨rfl, rfl⟩

/-- If the base is in use, the names of its stem are tried, and if none of them is free, its own. -/
theorem firstUnused?_candidates_of_mem (hBase : base ∈ taken) :
    firstUnused? taken (candidates base) =
      (firstUnused? taken (numberedFrom (splitNumber base).1 ((splitNumber base).2.getD 0 + 1))).or
        (firstUnused? taken (numberedFrom base 1)) := by
  rw [firstUnused?, candidates, List.find?_cons_of_neg (by simpa using hBase), List.find?_append]
  rfl

/-- A fresh name is the first candidate that is not in use. -/
theorem firstUnused?_candidates (hSize : taken.size < counterLimit) (base : String) :
    firstUnused? taken (candidates base) = some (fresh taken base) := by
  by_cases hBase : base ∈ taken
  · obtain ⟨hLast, hSome⟩ := firstUnused?_numberedFrom_one hSize hBase
    obtain ⟨last, hFound⟩ := Option.isSome_iff_exists.mp hSome
    rw [firstUnused?_candidates_of_mem hBase, fresh, if_pos hBase, firstUnused?_numberedFrom]
    dsimp only
    -- The searches of `fresh` are bounded by the number of names in use, which is no restriction.
    rw [firstFree?_min, ← hLast, hFound]
    cases firstFree? taken (splitNumber base).1 ((splitNumber base).2.getD 0 + 1)
      (counterLimit - ((splitNumber base).2.getD 0 + 1)) <;> rfl
  · rw [firstUnused?, candidates, List.find?_cons_of_pos (by simpa using hBase), fresh, if_neg hBase]

/-! The loop. -/

/-- What the loop tries after a stem and a number: the next number, or one behind the whole base if the
numbers have run out. -/
def advance (base stem : String) (number : Nat) : String × Nat :=
  if number + 1 < counterLimit then (stem, number + 1) else (base, 1)

/-- The loop, from the stem and the number that it has tried last to the name with which it ends. -/
inductive CountsTo (taken : SortedSet String) (base : String) : String → Nat → String → Prop where
  | free {stem nextStem : String} {number next : Nat}
      (turn : advance base stem number = (nextStem, next)) (free : numbered nextStem next ∉ taken) :
      CountsTo taken base stem number (numbered nextStem next)
  | used {stem nextStem name : String} {number next : Nat}
      (turn : advance base stem number = (nextStem, next)) (used : numbered nextStem next ∈ taken)
      (rest : CountsTo taken base nextStem next name) : CountsTo taken base stem number name

/-- One turn decides how the loop goes on. -/
theorem countsTo_iff {nextStem : String} {next : Nat}
    (hTurn : advance base stem number = (nextStem, next)) :
    CountsTo taken base stem number name ↔
      if numbered nextStem next ∈ taken then CountsTo taken base nextStem next name
      else name = numbered nextStem next := by
  constructor
  · intro loop
    cases loop with
    | free turn free =>
        obtain ⟨rfl, rfl⟩ := Prod.mk.inj (turn.symm.trans hTurn)
        rw [if_neg free]
    | used turn used rest =>
        obtain ⟨rfl, rfl⟩ := Prod.mk.inj (turn.symm.trans hTurn)
        rwa [if_pos used]
  · intro hNext
    split at hNext
    · next used => exact .used hTurn used hNext
    · next free => exact hNext ▸ .free hTurn free

/-- From a stem and a number the loop tries all later numbers of the stem. If none of the names is free, it
goes on as it does from the whole base. -/
theorem countsTo_iff_firstUnused? (hNumber : number < counterLimit) :
    CountsTo taken base stem number name ↔
      match firstUnused? taken (numberedFrom stem (number + 1)) with
      | some found => name = found
      | none => CountsTo taken base base 0 name := by
  -- The counter grows as long as it stays with the stem, so the induction is on the numbers left for it.
  induction hGap : counterLimit - (number + 1) generalizing number with
  | zero =>
      -- Both loops are reset to the same place.
      have hTurn : advance base stem number = (base, 1) := if_neg (by omega)
      have hStart : advance base base 0 = (base, 1) := if_pos (by decide)
      have hNone : numberedFrom stem (number + 1) = [] := by rw [numberedFrom, hGap]; rfl
      rw [hNone, countsTo_iff hTurn]
      exact (countsTo_iff hStart).symm
  | succ gap ih =>
      have hTurn : advance base stem number = (stem, number + 1) := if_pos (by omega)
      have hCons : numberedFrom stem (number + 1) =
          numbered stem (number + 1) :: numberedFrom stem (number + 1 + 1) := by
        rw [numberedFrom, numberedFrom, hGap, show counterLimit - (number + 1 + 1) = gap by omega]
        rfl
      rw [hCons, countsTo_iff hTurn, firstUnused?]
      by_cases hUsed : numbered stem (number + 1) ∈ taken
      · rw [if_pos hUsed, List.find?_cons_of_neg (by simpa using hUsed), ← firstUnused?]
        exact ih (by omega) (by omega)
      · rw [if_neg hUsed, List.find?_cons_of_pos (by simpa using hUsed)]

/-- The number of a name is read only where a counter can hold it. -/
theorem number_lt_counterLimit (base : String) : (splitNumber base).2.getD 0 < counterLimit := by
  rw [splitNumber]
  split
  · exact Nat.pos_of_ne_zero (by decide)
  · next hNumber => exact Nat.lt_of_not_le (not_or.mp hNumber).2

/-- From the stem and the number of a base in use, the loop ends with the fresh name. -/
theorem countsTo_iff_eq_fresh (hSize : taken.size < counterLimit) (hBase : base ∈ taken) :
    CountsTo taken base (splitNumber base).1 ((splitNumber base).2.getD 0) name ↔
      name = fresh taken base := by
  have hFresh := firstUnused?_candidates hSize base
  rw [firstUnused?_candidates_of_mem hBase] at hFresh
  rw [countsTo_iff_firstUnused? (number_lt_counterLimit base)]
  cases hStem : firstUnused? taken
      (numberedFrom (splitNumber base).1 ((splitNumber base).2.getD 0 + 1)) with
  | some found =>
      rw [hStem, Option.some_or, Option.some_inj] at hFresh
      rw [hFresh]
  | none =>
      rw [hStem, Option.none_or] at hFresh
      have hLimit : 0 < counterLimit := Nat.pos_of_ne_zero (by decide)
      exact (countsTo_iff_firstUnused? hLimit).trans (by rw [hFresh])

/-- A name for a base: the base if it is not in use, and else what the loop from its stem and its number
ends with. -/
inductive Assigns (taken : SortedSet String) (base : String) : String → Prop where
  | kept (free : base ∉ taken) : Assigns taken base base
  | counted {name : String} (used : base ∈ taken)
      (loop : CountsTo taken base (splitNumber base).1 ((splitNumber base).2.getD 0) name) :
      Assigns taken base name

/-- Names for bases one after another. Each is in use from then on. -/
inductive AssignsAll : SortedSet String → List String → List String → Prop where
  | nil (taken : SortedSet String) : AssignsAll taken [] []
  | cons {taken : SortedSet String} {base name : String} {bases names : List String}
      (first : Assigns taken base name) (rest : AssignsAll (taken.insert name) bases names) :
      AssignsAll taken (base :: bases) (name :: names)

/-- The loop ends for every base, and with one name only. -/
theorem assigns_iff (hSize : taken.size < counterLimit) :
    Assigns taken base name ↔ name = fresh taken base := by
  constructor
  · intro given
    cases given with
    | kept free => rw [fresh, if_neg free]
    | counted used loop => exact (countsTo_iff_eq_fresh hSize used).mp loop
  · rintro rfl
    by_cases hBase : base ∈ taken
    · exact .counted hBase ((countsTo_iff_eq_fresh hSize hBase).mpr rfl)
    · rw [fresh, if_neg hBase]
      exact .kept hBase

theorem assignsAll_iff (hSize : taken.size + bases.length ≤ counterLimit) :
    AssignsAll taken bases names ↔ names = freshAll taken bases := by
  induction bases generalizing taken names with
  | nil =>
      constructor
      · intro given
        cases given with
        | nil => rfl
      · rintro rfl
        exact .nil taken
  | cons base bases ih =>
      rw [List.length_cons] at hSize
      have hFirst : ∀ {name}, Assigns taken base name ↔ name = fresh taken base :=
        assigns_iff (by omega)
      have hInsert : (taken.insert (fresh taken base)).size = taken.size + 1 :=
        SortedSet.size_insert (fresh_not_mem taken base)
      constructor
      · intro given
        cases given with
        | cons first rest =>
            obtain rfl := hFirst.mp first
            rw [freshAll, (ih (by omega)).mp rest]
      · rintro rfl
        exact .cons (hFirst.mpr rfl) ((ih (by omega)).mpr rfl)

/-- Below the limit of names, the loop ends, and in no other way than with the fresh name. It is not in
use, and it is the first candidate that is not. Fresh names for bases one after another are what the
loops end with, and they are different from each other and from all names in use before. -/
theorem fresh_is_first_unused (taken : SortedSet String) (base : String)
    (hSize : taken.size < counterLimit) :
    (∀ name, Assigns taken base name ↔ name = fresh taken base) ∧
    fresh taken base ∉ taken ∧
    firstUnused? taken (candidates base) = some (fresh taken base) ∧
    ∀ bases, taken.size + bases.length ≤ counterLimit →
      (∀ names, AssignsAll taken bases names ↔ names = freshAll taken bases) ∧
      (freshAll taken bases).Nodup ∧ ∀ name ∈ freshAll taken bases, name ∉ taken := by
  refine ⟨fun name => assigns_iff hSize, fresh_not_mem taken base,
    firstUnused?_candidates hSize base, ?_⟩
  intro bases hBases
  exact ⟨fun names => assignsAll_iff hBases, nodup_freshAll taken bases,
    fun name => not_mem_of_mem_freshAll⟩

/-- No number comes after the largest counter. The names that are made of the whole base follow, of which
the first is in use. -/
theorem fresh_is_first_unused_largest :
    Assigns (SortedSet.ofList ["q18446744073709551615", "q184467440737095516151"])
        "q18446744073709551615" "q184467440737095516152" ∧
      AssignsAll (SortedSet.ofList ["q18446744073709551615", "q184467440737095516151"])
        ["q18446744073709551615", "q", "q18446744073709551614", "q"]
        ["q184467440737095516152", "q", "q18446744073709551614", "q1"] := by
  obtain ⟨hLoop, _, _, hAll⟩ := fresh_is_first_unused
    (SortedSet.ofList ["q18446744073709551615", "q184467440737095516151"])
    "q18446744073709551615" (by decide)
  exact ⟨(hLoop _).mpr (by decide), ((hAll _ (by decide)).1 _).mpr (by decide)⟩

end Acceptors.Name
