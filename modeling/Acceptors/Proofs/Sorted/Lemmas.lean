import Acceptors.Sorted.Map
import Mathlib.Data.List.Nodup
import Mathlib.Data.List.Perm.Subperm
import Mathlib.Data.List.ProdSigma
import Mathlib.Data.List.Sort
import Mathlib.Data.List.Sublists
import Mathlib.Data.Set.Function

/-! Sets and maps as their members and lookups determine them, counting in sets, and tables built from
lists of entries. -/
namespace Acceptors

namespace KeyOrder

/-- A listing by ascending key is determined by what it lists. -/
theorem eq_of_pairwise_before {α κ : Type} [KeyOrder κ] (key : α → κ) {l m : List α}
    (hl : l.Pairwise fun a b => before (key a) (key b) = true)
    (hm : m.Pairwise fun a b => before (key a) (key b) = true) (hMem : ∀ a, a ∈ l ↔ a ∈ m) :
    l = m := by
  have : Std.Irrefl fun a b => before (key a) (key b) = true :=
    ⟨fun a => Bool.eq_false_iff.mp (before_irrefl (key a))⟩
  have : Std.Antisymm fun a b => before (key a) (key b) = true :=
    ⟨fun _ _ hab hba => absurd hba (not_before_of_before hab)⟩
  exact hl.eq_of_mem_iff hm hMem

end KeyOrder

namespace SortedSet

variable {α β : Type} [KeyOrder α] [DecidableEq α] [KeyOrder β] [DecidableEq β]

omit [DecidableEq α] in
/-- A set is determined by its members. -/
@[ext] theorem ext {s t : SortedSet α} (hMem : ∀ a, a ∈ s ↔ a ∈ t) : s = t := by
  obtain ⟨l, hl⟩ := s
  obtain ⟨m, hm⟩ := t
  obtain rfl : l = m := KeyOrder.eq_of_pairwise_before id hl hm hMem
  rfl

omit [DecidableEq α] in
/-- No list of different members is longer than the set. -/
theorem length_le_size {s : SortedSet α} {l : List α} (hNodup : l.Nodup)
    (hMem : ∀ a ∈ l, a ∈ s) : l.length ≤ s.size :=
  (hNodup.subperm hMem).length_le

omit [DecidableEq α] in
theorem size_le_of_subset {s t : SortedSet α} (hMem : ∀ a ∈ s, a ∈ t) : s.size ≤ t.size :=
  length_le_size s.nodup_toList hMem

omit [DecidableEq α] in
/-- The size of a set is the length of any list that has its members, each once. -/
theorem size_eq_length {s : SortedSet α} {l : List α} (hNodup : l.Nodup)
    (hMem : ∀ a, a ∈ s ↔ a ∈ l) : s.size = l.length := by
  have hPerm : s.toList.Perm l := (List.perm_ext_iff_of_nodup s.nodup_toList hNodup).mpr hMem
  exact hPerm.length_eq

omit [DecidableEq α] in
/-- Of two members, the one that is listed before the other has the smaller number. -/
theorem idxOf_lt_idxOf [BEq α] [LawfulBEq α] {s : SortedSet α} {a b : α} (ha : a ∈ s) (hb : b ∈ s)
    (hBefore : KeyOrder.before a b = true) : s.toList.idxOf a < s.toList.idxOf b := by
  have hLess := List.idxOf_lt_length_of_mem ha
  have hLess' := List.idxOf_lt_length_of_mem hb
  rcases Nat.lt_trichotomy (s.toList.idxOf a) (s.toList.idxOf b) with hFirst | hSame | hSecond
  · exact hFirst
  · exact absurd ((List.idxOf_inj ha).mp hSame) (KeyOrder.ne_of_before hBefore)
  · have hBack := List.pairwise_iff_getElem.mp s.ascending _ _ hLess' hLess hSecond
    rw [List.getElem_idxOf, List.getElem_idxOf] at hBack
    exact absurd hBack (KeyOrder.not_before_of_before hBefore)

theorem size_insert {s : SortedSet α} {a : α} (ha : a ∉ s) : (s.insert a).size = s.size + 1 := by
  have hNodup : (a :: s.toList).Nodup := List.nodup_cons.mpr ⟨ha, s.nodup_toList⟩
  apply size_eq_length hNodup
  intro b
  rw [mem_insert, List.mem_cons, mem_toList]

/-- The sizes of sets without a common member add up. -/
theorem size_union {s t : SortedSet α} (hDisjoint : ∀ a ∈ t, a ∉ s) :
    (s ∪ t).size = s.size + t.size := by
  have hNodup : (s.toList ++ t.toList).Nodup := by
    apply s.nodup_toList.append t.nodup_toList
    intro a hs ht
    exact hDisjoint a ht hs
  have hMem : ∀ a, a ∈ s ∪ t ↔ a ∈ s.toList ++ t.toList := by
    intro a
    rw [mem_union, List.mem_append, mem_toList, mem_toList]
  rw [size_eq_length hNodup hMem, List.length_append, size, size]

theorem toList_sublist_of_subset {s t : SortedSet α} (hMem : ∀ a ∈ s, a ∈ t) :
    s.toList.Sublist t.toList := by
  have hEq : t.filter (fun a => decide (a ∈ s)) = s := by
    ext a
    simp only [mem_filter, decide_eq_true_eq, and_iff_right_iff_imp]
    exact hMem a
  rw [← hEq]
  exact List.filter_sublist

/-- A set of `n` members has at most `2 ^ n` different subsets. -/
theorem length_le_two_pow_size {t : SortedSet α} {l : List (SortedSet α)} (hNodup : l.Nodup)
    (hSubset : ∀ s ∈ l, ∀ a ∈ s, a ∈ t) : l.length ≤ Nat.pow 2 t.size := by
  have hInj : Function.Injective (toList : SortedSet α → List α) := by
    intro s u hEq
    ext a
    rw [← mem_toList, hEq, mem_toList]
  have hLists : l.map toList ⊆ t.toList.sublists := by
    intro m hm
    obtain ⟨s, hs, rfl⟩ := List.mem_map.mp hm
    exact List.mem_sublists.mpr (toList_sublist_of_subset (hSubset s hs))
  have hLength := ((hNodup.map hInj).subperm hLists).length_le
  rw [List.length_map, List.length_sublists] at hLength
  exact hLength

omit [DecidableEq α] in
/-- A renaming that keeps members apart keeps their number. -/
theorem size_map_of_injOn {s : SortedSet α} {f : α → β} (hInj : Set.InjOn f {a | a ∈ s}) :
    (s.map f).size = s.size := by
  have hNodup : (s.toList.map f).Nodup := s.nodup_toList.map_on fun a ha b hb => hInj ha hb
  have hMem : ∀ b, b ∈ s.map f ↔ b ∈ s.toList.map f := fun _ => mem_ofList
  rw [size_eq_length hNodup hMem, List.length_map, size]

end SortedSet

/-- What a lookup finds stands in the list. -/
theorem mem_of_lookup_eq_some {κ ν : Type} [DecidableEq κ] {l : List (κ × ν)} {k : κ} {v : ν}
    (hLookup : l.lookup k = some v) : (k, v) ∈ l := by
  obtain ⟨before, after, hs, _⟩ := List.lookup_eq_some_iff.mp hLookup
  rw [hs]
  exact List.mem_append_right _ List.mem_cons_self

theorem exists_lookup_of_mem {κ ν : Type} [DecidableEq κ] {l : List (κ × ν)} {k : κ} {v : ν}
    (hIn : (k, v) ∈ l) : ∃ w, l.lookup k = some w := by
  rw [← Option.isSome_iff_exists, List.lookup_isSome_iff]
  exact ⟨(k, v), hIn, beq_self_eq_true k⟩

/-- In a list whose entries do not contradict each other, a lookup finds exactly these. -/
theorem lookup_eq_some_iff_of_functional {κ ν : Type} [DecidableEq κ] {l : List (κ × ν)}
    (hFunctional : ∀ k v w, (k, v) ∈ l → (k, w) ∈ l → v = w) {k : κ} {v : ν} :
    l.lookup k = some v ↔ (k, v) ∈ l := by
  constructor
  · exact mem_of_lookup_eq_some
  · intro hIn
    obtain ⟨w, hw⟩ := exists_lookup_of_mem hIn
    rw [hw, hFunctional k w v (mem_of_lookup_eq_some hw) hIn]

namespace SortedMap

variable {κ ν : Type} [KeyOrder κ] [DecidableEq κ]

/-- A map is determined by its lookups. -/
theorem ext_get? {m n : SortedMap κ ν} (hGet : ∀ k, m.get? k = n.get? k) : m = n := by
  have hMem : ∀ e, e ∈ m.entries ↔ e ∈ n.entries := by
    intro e
    rw [mem_entries_iff, mem_entries_iff, hGet]
  obtain ⟨l, hl⟩ := m
  obtain ⟨l', hl'⟩ := n
  obtain rfl : l = l' := KeyOrder.eq_of_pairwise_before Prod.fst hl hl' hMem
  rfl

/-- A map built from entries that do not contradict each other stores exactly these. -/
theorem get?_ofList_eq_some_iff {l : List (κ × ν)}
    (hFunctional : ∀ k v w, (k, v) ∈ l → (k, w) ∈ l → v = w) {k : κ} {v : ν} :
    (ofList l).get? k = some v ↔ (k, v) ∈ l := by
  have hReverse : ∀ k v w, (k, v) ∈ l.reverse → (k, w) ∈ l.reverse → v = w := by
    simpa only [List.mem_reverse] using hFunctional
  rw [ofList, get?_insertAll, get?_empty, Option.or_none,
    lookup_eq_some_iff_of_functional hReverse, List.mem_reverse]

/-- The entries of one map, stored over those of another. -/
theorem get?_insertAll_entries {m n : SortedMap κ ν} {k : κ} :
    (m.insertAll n.entries).get? k = (n.get? k).or (m.get? k) := by
  have hFunctional : ∀ k v w, (k, v) ∈ n.entries.reverse → (k, w) ∈ n.entries.reverse → v = w := by
    intro k v w hv hw
    rw [List.mem_reverse, mem_entries_iff] at hv hw
    exact Option.some.inj (hv.symm.trans hw)
  have hLookup : n.entries.reverse.lookup k = n.get? k := by
    ext v
    rw [lookup_eq_some_iff_of_functional hFunctional, List.mem_reverse, mem_entries_iff]
  rw [get?_insertAll, hLookup]

theorem exists_get?_of_mem {m : SortedMap κ ν} {k : κ} (hk : k ∈ m) : ∃ v, m.get? k = some v :=
  Option.isSome_iff_exists.mp (mem_iff.mp hk)

/-- A table with an entry for each pair of two sets has as many entries as there are pairs. -/
theorem size_eq_mul {α β : Type} [KeyOrder α] [DecidableEq α] [KeyOrder β] [DecidableEq β]
    {m : SortedMap (α × β) ν} {s : SortedSet α} {t : SortedSet β}
    (hKeys : ∀ a b, (a, b) ∈ m ↔ a ∈ s ∧ b ∈ t) : m.size = s.size * t.size := by
  have hNodup : (s.toList ×ˢ t.toList).Nodup := s.nodup_toList.product t.nodup_toList
  have hSize : m.keys.size = (s.toList ×ˢ t.toList).length := by
    apply SortedSet.size_eq_length hNodup
    intro key
    rw [mem_keys, List.mem_product]
    exact hKeys key.1 key.2
  rw [List.length_product] at hSize
  rw [size, ← List.length_map Prod.fst]
  exact hSize

theorem mem_of_get?_eq_some {m : SortedMap κ ν} {k : κ} {v : ν} (hGet : m.get? k = some v) :
    k ∈ m := by
  rw [mem_iff, hGet]
  rfl

end SortedMap

end Acceptors
