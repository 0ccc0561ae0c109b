import Acceptors.Sorted.Set

/-! Finite maps that list their entries by ascending key. A lookup is the view of a map: each
operation is described by the lookups of its result. -/
namespace Acceptors

open KeyOrder

variable {κ ν : Type} [KeyOrder κ] [DecidableEq κ]

/-- A finite map, held as the list of its entries by strictly ascending key. -/
structure SortedMap (κ ν : Type) [KeyOrder κ] where
  entries : List (κ × ν)
  ascending : entries.Pairwise (fun e f => before e.1 f.1 = true)

instance [DecidableEq ν] : DecidableEq (SortedMap κ ν) := fun m n =>
  if hEq : m.entries = n.entries then
    isTrue (by cases m; cases n; cases hEq; rfl)
  else
    isFalse fun hSame => hEq (hSame ▸ rfl)

namespace SortedMap

instance : EmptyCollection (SortedMap κ ν) := ⟨⟨[], .nil⟩⟩

instance : Inhabited (SortedMap κ ν) := ⟨∅⟩

/-- The value stored for a key. -/
def get? (m : SortedMap κ ν) (k : κ) : Option ν := m.entries.lookup k

/-- A key is a member of a map that stores a value for it. -/
instance : Membership κ (SortedMap κ ν) := ⟨fun m k => (m.get? k).isSome = true⟩

instance (k : κ) (m : SortedMap κ ν) : Decidable (k ∈ m) :=
  inferInstanceAs (Decidable ((m.get? k).isSome = true))

theorem mem_iff {m : SortedMap κ ν} {k : κ} : k ∈ m ↔ (m.get? k).isSome = true := Iff.rfl

@[simp] theorem get?_empty (k : κ) : (∅ : SortedMap κ ν).get? k = none := rfl

omit [KeyOrder κ] in
private theorem lookup_cons_if {k k' : κ} {v : ν} {l : List (κ × ν)} :
    ((k', v) :: l).lookup k = if k = k' then some v else l.lookup k := by
  rw [List.lookup_cons]
  by_cases hk : k = k'
  · simp [hk]
  · simp [hk, beq_eq_false_iff_ne.mpr hk]

/-- In a list with ascending keys, a lookup finds exactly the listed value. -/
theorem lookup_eq_some_iff_mem {l : List (κ × ν)}
    (hl : l.Pairwise (fun e f => before e.1 f.1 = true)) {k : κ} {v : ν} :
    l.lookup k = some v ↔ (k, v) ∈ l := by
  induction l with
  | nil => simp
  | cons e l ih =>
      obtain ⟨k', v'⟩ := e
      rw [List.pairwise_cons] at hl
      rw [lookup_cons_if, List.mem_cons]
      by_cases hk : k = k'
      · subst hk
        have hFresh : (k, v) ∉ l := fun hIn =>
          ne_of_before (hl.1 (k, v) hIn) rfl
        simp [hFresh, eq_comm]
      · simp [hk, ih hl.2]

theorem mem_entries_iff {m : SortedMap κ ν} {k : κ} {v : ν} :
    (k, v) ∈ m.entries ↔ m.get? k = some v :=
  (lookup_eq_some_iff_mem m.ascending).symm

theorem mem_of_mem_entries {m : SortedMap κ ν} {e : κ × ν} (hIn : e ∈ m.entries) :
    e.1 ∈ m := by
  rw [mem_iff, mem_entries_iff.mp hIn]
  rfl

/-- Replace the value stored for a key, which `f` computes from what was stored before. -/
def alterList (k : κ) (f : Option ν → ν) : List (κ × ν) → List (κ × ν)
  | [] => [(k, f none)]
  | e :: l =>
    if k = e.1 then (k, f (some e.2)) :: l
    else if before k e.1 then (k, f none) :: e :: l
    else e :: alterList k f l

theorem key_of_mem_alterList {k : κ} {f : Option ν → ν} {l : List (κ × ν)} {e : κ × ν}
    (hIn : e ∈ alterList k f l) : e.1 = k ∨ e ∈ l := by
  induction l with
  | nil =>
      rw [alterList, List.mem_singleton] at hIn
      exact .inl (hIn ▸ rfl)
  | cons g l ih =>
      rw [alterList] at hIn
      split at hIn
      · rcases List.mem_cons.mp hIn with rfl | hIn
        · exact .inl rfl
        · exact .inr (List.mem_cons_of_mem g hIn)
      · split at hIn
        · rcases List.mem_cons.mp hIn with rfl | hIn
          · exact .inl rfl
          · exact .inr hIn
        · rcases List.mem_cons.mp hIn with rfl | hIn
          · exact .inr List.mem_cons_self
          · exact (ih hIn).imp_right (List.mem_cons_of_mem g)

theorem pairwise_alterList {k : κ} {f : Option ν → ν} {l : List (κ × ν)}
    (hl : l.Pairwise (fun e f => before e.1 f.1 = true)) :
    (alterList k f l).Pairwise (fun e f => before e.1 f.1 = true) := by
  induction l with
  | nil => simp [alterList]
  | cons e l ih =>
      have hCons := List.pairwise_cons.mp hl
      rw [alterList]
      split
      · rename_i hk
        exact List.pairwise_cons.mpr ⟨fun g hg => hk ▸ hCons.1 g hg, hCons.2⟩
      · rename_i hNe
        split
        · rename_i hBefore
          refine List.pairwise_cons.mpr ⟨fun g hg => ?_, hl⟩
          rcases List.mem_cons.mp hg with rfl | hg
          · exact hBefore
          · exact before_trans hBefore (hCons.1 g hg)
        · rename_i hNot
          refine List.pairwise_cons.mpr ⟨fun g hg => ?_, ih hCons.2⟩
          rcases key_of_mem_alterList hg with hKey | hg
          · rw [hKey]
            exact before_of_ne (Bool.eq_false_iff.mpr hNot) hNe
          · exact hCons.1 g hg

theorem lookup_alterList {k k' : κ} {f : Option ν → ν} {l : List (κ × ν)}
    (hl : l.Pairwise (fun e f => before e.1 f.1 = true)) :
    (alterList k f l).lookup k' = if k' = k then some (f (l.lookup k)) else l.lookup k' := by
  induction l with
  | nil => simp [alterList, lookup_cons_if]
  | cons e l ih =>
      obtain ⟨j, v⟩ := e
      rw [List.pairwise_cons] at hl
      rw [alterList]
      split
      · rename_i hEq
        change k = j at hEq
        subst hEq
        by_cases hk : k' = k <;> simp [lookup_cons_if, hk]
      · rename_i hNe
        change k ≠ j at hNe
        split
        · rename_i hBefore
          have hAbsent : List.lookup k ((j, v) :: l) = none := by
            rw [List.lookup_eq_none_iff]
            intro g hg
            refine bne_iff_ne.mpr ?_
            rcases List.mem_cons.mp hg with rfl | hg
            · exact hNe
            · exact ne_of_before (before_trans hBefore (hl.1 g hg))
          rw [hAbsent, lookup_cons_if]
        · simp only [lookup_cons_if, ih hl.2, if_neg hNe]
          by_cases hk : k' = k
          · subst hk
            simp [hNe]
          · simp [hk]

/-- The map in which the value of one key is computed from the value it had, if any. -/
def alter (m : SortedMap κ ν) (k : κ) (f : Option ν → ν) : SortedMap κ ν :=
  ⟨alterList k f m.entries, pairwise_alterList m.ascending⟩

@[simp] theorem get?_alter {m : SortedMap κ ν} {k k' : κ} {f : Option ν → ν} :
    (m.alter k f).get? k' = if k' = k then some (f (m.get? k)) else m.get? k' :=
  lookup_alterList m.ascending

/-- The map with a value stored for a key, in place of any earlier one. -/
def insert (m : SortedMap κ ν) (k : κ) (v : ν) : SortedMap κ ν := m.alter k fun _ => v

@[simp] theorem get?_insert {m : SortedMap κ ν} {k k' : κ} {v : ν} :
    (m.insert k v).get? k' = if k' = k then some v else m.get? k' :=
  get?_alter

/-- The map with all these entries stored, in order. -/
def insertAll (m : SortedMap κ ν) (l : List (κ × ν)) : SortedMap κ ν :=
  l.foldl (fun m e => m.insert e.1 e.2) m

/-- The last entry for a key counts, and all of them replace what was stored before. -/
theorem get?_insertAll {m : SortedMap κ ν} {l : List (κ × ν)} {k : κ} :
    (m.insertAll l).get? k = (l.reverse.lookup k).or (m.get? k) := by
  induction l generalizing m with
  | nil => rfl
  | cons e l ih =>
      rw [insertAll, List.foldl_cons, ← insertAll, ih, get?_insert, List.reverse_cons,
        List.lookup_append, lookup_cons_if, List.lookup_nil, Option.or_assoc]
      by_cases hk : k = e.1 <;> simp [hk]

/-- The map of these entries, of which the last for a key counts. -/
def ofList (l : List (κ × ν)) : SortedMap κ ν := insertAll ∅ l

/-- The entries whose key passes a test. -/
def filterKeys (p : κ → Bool) (m : SortedMap κ ν) : SortedMap κ ν :=
  ⟨m.entries.filter fun e => p e.1, m.ascending.filter _⟩

@[simp] theorem get?_filterKeys {p : κ → Bool} {m : SortedMap κ ν} {k : κ} :
    (m.filterKeys p).get? k = if p k then m.get? k else none := by
  refine Option.ext fun v => ?_
  rw [← mem_entries_iff, filterKeys, List.mem_filter, mem_entries_iff]
  cases p k <;> simp

/-- The map in which a function has been applied to every value. -/
def mapValues {μ : Type} (f : ν → μ) (m : SortedMap κ ν) : SortedMap κ μ :=
  ⟨m.entries.map fun e => (e.1, f e.2), List.pairwise_map.mpr m.ascending⟩

@[simp] theorem get?_mapValues {μ : Type} {f : ν → μ} {m : SortedMap κ ν} {k : κ} :
    (m.mapValues f).get? k = (m.get? k).map f := by
  refine Option.ext fun v => ?_
  rw [← mem_entries_iff, mapValues, Option.map_eq_some_iff]
  simp only [List.mem_map, Prod.mk.injEq, Prod.exists, mem_entries_iff]
  constructor
  · rintro ⟨_, w, hGet, rfl, rfl⟩
    exact ⟨w, hGet, rfl⟩
  · rintro ⟨w, hGet, rfl⟩
    exact ⟨k, w, hGet, rfl, rfl⟩

/-- The keys that have a value, in ascending order. -/
def keys (m : SortedMap κ ν) : SortedSet κ :=
  ⟨m.entries.map Prod.fst, List.pairwise_map.mpr m.ascending⟩

theorem mem_keys {m : SortedMap κ ν} {k : κ} : k ∈ m.keys ↔ k ∈ m := by
  rw [mem_iff, Option.isSome_iff_exists]
  simp only [← mem_entries_iff]
  simp [keys, ← SortedSet.mem_toList]

/-- The number of entries. -/
def size (m : SortedMap κ ν) : Nat := m.entries.length

end SortedMap

end Acceptors
