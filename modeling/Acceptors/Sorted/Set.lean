import Acceptors.Sorted.Order

/-! Finite sets that list their members in ascending order. The listing is determined by the
members, and membership is the view through which every operation is described. -/
namespace Acceptors

open KeyOrder

variable {α β : Type} [KeyOrder α] [DecidableEq α] [KeyOrder β] [DecidableEq β]

/-- A finite set, held as the strictly ascending list of its members. -/
structure SortedSet (α : Type) [KeyOrder α] where
  toList : List α
  ascending : toList.Pairwise (fun a b => before a b = true)
deriving DecidableEq

namespace SortedSet

instance : Membership α (SortedSet α) := ⟨fun s a => a ∈ s.toList⟩

omit [DecidableEq α] in
@[simp] theorem mem_toList {a : α} {s : SortedSet α} : a ∈ s.toList ↔ a ∈ s := Iff.rfl

instance (a : α) (s : SortedSet α) : Decidable (a ∈ s) :=
  inferInstanceAs (Decidable (a ∈ s.toList))

instance : EmptyCollection (SortedSet α) := ⟨⟨[], .nil⟩⟩

instance : Inhabited (SortedSet α) := ⟨∅⟩

omit [DecidableEq α] in
@[simp] theorem not_mem_empty (a : α) : a ∉ (∅ : SortedSet α) := List.not_mem_nil

omit [DecidableEq α] in
theorem nodup_toList (s : SortedSet α) : s.toList.Nodup :=
  s.ascending.imp fun hBefore => ne_of_before hBefore

/-- Place a member where it keeps an ascending list ascending. -/
def insertList (a : α) : List α → List α
  | [] => [a]
  | b :: l => if a = b then b :: l else if before a b then a :: b :: l else b :: insertList a l

@[simp] theorem mem_insertList {a b : α} {l : List α} :
    b ∈ insertList a l ↔ b = a ∨ b ∈ l := by
  induction l with
  | nil => simp [insertList]
  | cons c l ih =>
      simp only [insertList]
      split
      · simp_all
      · split
        · simp
        · simp only [List.mem_cons, ih]
          exact or_left_comm

theorem pairwise_insertList {a : α} {l : List α}
    (hl : l.Pairwise (fun a b => before a b = true)) :
    (insertList a l).Pairwise (fun a b => before a b = true) := by
  induction l with
  | nil => simp [insertList]
  | cons b l ih =>
      have hCons := List.pairwise_cons.mp hl
      simp only [insertList]
      split
      · exact hl
      · rename_i hNe
        split
        · rename_i hBefore
          refine List.pairwise_cons.mpr ⟨fun c hc => ?_, hl⟩
          rcases List.mem_cons.mp hc with rfl | hc
          · exact hBefore
          · exact before_trans hBefore (hCons.1 c hc)
        · rename_i hNot
          refine List.pairwise_cons.mpr ⟨fun c hc => ?_, ih hCons.2⟩
          rcases mem_insertList.mp hc with rfl | hc
          · exact before_of_ne (Bool.eq_false_iff.mpr hNot) hNe
          · exact hCons.1 c hc

/-- The set with one more member. -/
def insert (s : SortedSet α) (a : α) : SortedSet α :=
  ⟨insertList a s.toList, pairwise_insertList s.ascending⟩

@[simp] theorem mem_insert {s : SortedSet α} {a b : α} : b ∈ s.insert a ↔ b = a ∨ b ∈ s :=
  mem_insertList

/-- The set of the members of a list, which may repeat and come in any order. -/
def ofList (l : List α) : SortedSet α := l.foldr (fun a s => s.insert a) ∅

@[simp] theorem mem_ofList {l : List α} {a : α} : a ∈ ofList l ↔ a ∈ l := by
  induction l with
  | nil => simp [ofList]
  | cons b l ih => simpa [ofList] using or_congr_right ih

instance : Union (SortedSet α) := ⟨fun s t => s.toList.foldr (fun a u => u.insert a) t⟩

@[simp] theorem mem_union {s t : SortedSet α} {a : α} : a ∈ s ∪ t ↔ a ∈ s ∨ a ∈ t := by
  have hFold : ∀ l : List α, a ∈ l.foldr (fun a u => u.insert a) t ↔ a ∈ l ∨ a ∈ t := by
    intro l
    induction l with
    | nil => simp
    | cons b l ih => simp [ih, or_assoc]
  exact hFold s.toList

/-- The members that pass a test. -/
def filter (p : α → Bool) (s : SortedSet α) : SortedSet α :=
  ⟨s.toList.filter p, s.ascending.filter p⟩

omit [DecidableEq α] in
@[simp] theorem mem_filter {p : α → Bool} {s : SortedSet α} {a : α} :
    a ∈ s.filter p ↔ a ∈ s ∧ p a = true := List.mem_filter

/-- The image of the set under a function. -/
def map (f : α → β) (s : SortedSet α) : SortedSet β := ofList (s.toList.map f)

omit [DecidableEq α] in
@[simp] theorem mem_map {f : α → β} {s : SortedSet α} {b : β} :
    b ∈ s.map f ↔ ∃ a ∈ s, f a = b := by
  simp [map]

/-- The union of the sets that a function assigns to the members. -/
def biUnion (s : SortedSet α) (f : α → SortedSet β) : SortedSet β :=
  s.toList.foldr (fun a u => f a ∪ u) ∅

omit [DecidableEq α] in
@[simp] theorem mem_biUnion {s : SortedSet α} {f : α → SortedSet β} {b : β} :
    b ∈ s.biUnion f ↔ ∃ a ∈ s, b ∈ f a := by
  have hFold : ∀ l : List α, b ∈ l.foldr (fun a u => f a ∪ u) ∅ ↔ ∃ a ∈ l, b ∈ f a := by
    intro l
    induction l with
    | nil => simp
    | cons a l ih => simp [ih]
  exact hFold s.toList

/-- The number of members. -/
def size (s : SortedSet α) : Nat := s.toList.length

def isEmpty (s : SortedSet α) : Bool := s.toList.isEmpty

omit [DecidableEq α] in
theorem isEmpty_iff {s : SortedSet α} : s.isEmpty = true ↔ ∀ a, a ∉ s := by
  rw [isEmpty, List.isEmpty_iff, List.eq_nil_iff_forall_not_mem]
  rfl

/-- Whether two sets have a member in common. -/
def meets (s t : SortedSet α) : Bool := s.toList.any (fun a => decide (a ∈ t))

theorem meets_iff {s t : SortedSet α} : s.meets t = true ↔ ∃ a ∈ s, a ∈ t := by
  simp [meets]

end SortedSet

end Acceptors
