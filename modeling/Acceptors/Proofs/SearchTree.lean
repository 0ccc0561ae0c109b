import Mathlib.Data.List.Basic

/-! Trees in preorder. A tree is given by its root and by the branches of each node, and it may have
no end. The place of a node tells which branch to take at the root, which one there, and so on. In
the order of places a node comes before all that is below it, and what is below one branch comes
before what is below the next. Of a tree without an end, the listing in this order has only
beginnings. -/
namespace Acceptors.SearchTree

variable {α : Type} {next : α → List α}

/-- The branches to take, from the root on. -/
abbrev Place := List Nat

def node? (next : α → List α) : α → Place → Option α
  | a, [] => some a
  | a, i :: place => (next a)[i]?.bind fun b => node? next b place

/-- The node at a place in a row of trees. The place begins with the number of the tree. -/
def nodeIn? (next : α → List α) (roots : List α) : Place → Option α
  | [] => none
  | i :: place => roots[i]?.bind fun a => node? next a place

/-- A beginning of the listing in preorder, of the nodes that a lookup finds: they are listed by
ascending place, and every node before one of them is listed too. -/
structure Lists (lookup : Place → Option α) (places : List Place) (listed : List α) : Prop where
  nodes_eq : places.map lookup = listed.map some
  ascending : places.Pairwise (· < ·)
  closed : ∀ place ∈ places, ∀ earlier < place, (lookup earlier).isSome → earlier ∈ places

theorem lists_nil (lookup : Place → Option α) : Lists lookup [] [] :=
  ⟨rfl, .nil, List.forall_mem_nil _⟩

/-! One node is taken off. What remains is a row of trees again, whose nodes have other places. -/

/-- The nodes of the first lookup are `a`, at the place `first`, and then those of the second, in
the same order. -/
structure Unfolds (lookup : Place → Option α) (first : Place) (a : α) (move : Place → Place)
    (rest : Place → Option α) : Prop where
  lookup_first : lookup first = some a
  lookup_move : ∀ place, (rest place).isSome → lookup (move place) = rest place
  move_lt_iff : ∀ place other, move place < move other ↔ place < other
  first_lt : ∀ place, (rest place).isSome → first < move place
  cases : ∀ place, (lookup place).isSome →
    place = first ∨ ∃ other, (rest other).isSome ∧ move other = place

namespace Unfolds

variable {lookup rest : Place → Option α} {first : Place} {a : α} {move : Place → Place}
  {places : List Place} {listed : List α}

/-- A listing of the remaining nodes is one of all, behind the node that was taken off. -/
theorem lists (hUnfolds : Unfolds lookup first a move rest) (hLists : Lists rest places listed) :
    Lists lookup (first :: places.map move) (a :: listed) := by
  have hFound : ∀ place ∈ places, (rest place).isSome := by
    intro place hPlace
    have hNode : rest place ∈ listed.map some := hLists.nodes_eq ▸ List.mem_map_of_mem hPlace
    obtain ⟨b, _, hNode⟩ := List.mem_map.mp hNode
    rw [← hNode]
    rfl
  refine ⟨?_, ?_, ?_⟩
  · rw [List.map_cons, List.map_cons, hUnfolds.lookup_first, List.map_map, ← hLists.nodes_eq]
    congr 1
    apply List.map_congr_left
    intro place hPlace
    exact hUnfolds.lookup_move place (hFound place hPlace)
  · rw [List.pairwise_cons, List.forall_mem_map, List.pairwise_map]
    constructor
    · intro place hPlace
      exact hUnfolds.first_lt place (hFound place hPlace)
    · exact hLists.ascending.imp fun hBefore => (hUnfolds.move_lt_iff _ _).mpr hBefore
  · intro place hPlace earlier hBefore hEarlier
    rw [List.mem_cons] at hPlace ⊢
    rcases hUnfolds.cases earlier hEarlier with hFirst | ⟨other, hOther, rfl⟩
    · exact Or.inl hFirst
    · right
      rcases hPlace with rfl | hPlace
      · exact absurd hBefore (List.lt_asymm (hUnfolds.first_lt other hOther))
      · obtain ⟨later, hLater, rfl⟩ := List.mem_map.mp hPlace
        rw [hUnfolds.move_lt_iff] at hBefore
        exact List.mem_map_of_mem (hLists.closed later hLater other hBefore hOther)

theorem complete (hUnfolds : Unfolds lookup first a move rest)
    (hAll : ∀ place, (rest place).isSome → place ∈ places) :
    ∀ place, (lookup place).isSome → place ∈ first :: places.map move := by
  intro place hPlace
  rw [List.mem_cons]
  rcases hUnfolds.cases place hPlace with hFirst | ⟨other, hOther, rfl⟩
  · exact Or.inl hFirst
  · exact Or.inr (List.mem_map_of_mem (hAll other hOther))

end Unfolds

/-- The nodes of a tree are its root and the nodes of the row of its branches. -/
theorem unfolds_tree (a : α) : Unfolds (node? next a) [] a id (nodeIn? next (next a)) where
  lookup_first := rfl
  lookup_move place hPlace := by
    cases place with
    | nil => cases hPlace
    | cons i place => rfl
  move_lt_iff _ _ := Iff.rfl
  first_lt place hPlace := by
    cases place with
    | nil => cases hPlace
    | cons i place => exact List.nil_lt_cons i place
  cases place hPlace := by
    cases place with
    | nil => exact Or.inl rfl
    | cons i place => exact Or.inr ⟨i :: place, hPlace, rfl⟩

/-- The place of a node in a row of trees, from its place in the row that has the first `count`
branches in the place of the first tree. -/
def regroup (count : Nat) : Place → Place
  | [] => []
  | i :: place => if i < count then 0 :: i :: place else (i - count + 1) :: place

/-- The nodes that remain keep their order. -/
theorem regroup_lt_iff (count : Nat) (place other : Place) :
    regroup count place < regroup count other ↔ place < other := by
  cases place with
  | nil =>
      cases other with
      | nil => exact Iff.rfl
      | cons j other =>
          rw [regroup, regroup]
          split <;> simp
  | cons i place =>
      cases other with
      | nil =>
          rw [regroup, regroup]
          split <;> simp
      | cons j other =>
          rw [regroup, regroup]
          by_cases hi : i < count <;> by_cases hj : j < count
          · rw [if_pos hi, if_pos hj, List.cons_lt_cons_iff]
            simp
          · rw [if_pos hi, if_neg hj, List.cons_lt_cons_iff, List.cons_lt_cons_iff]
            exact iff_of_true (Or.inl (Nat.succ_pos _)) (Or.inl (by omega))
          · rw [if_neg hi, if_pos hj, List.cons_lt_cons_iff, List.cons_lt_cons_iff]
            apply iff_of_false <;> rintro (hLess | ⟨hEq, _⟩) <;> omega
          · have hLess : i - count + 1 < j - count + 1 ↔ i < j := by omega
            have hEq : i - count + 1 = j - count + 1 ↔ i = j := by omega
            rw [if_neg hi, if_neg hj, List.cons_lt_cons_iff, List.cons_lt_cons_iff, hLess, hEq]

/-- What is found with the branches in a row is found below their root. -/
theorem nodeIn?_regroup (a : α) (roots : List α) (place : Place) :
    nodeIn? next (a :: roots) (regroup (next a).length place) =
      nodeIn? next (next a ++ roots) place := by
  cases place with
  | nil => rfl
  | cons i place =>
      rw [regroup, nodeIn?, List.getElem?_append]
      split
      · rfl
      · rw [nodeIn?, List.getElem?_cons_succ]

/-- The nodes of a row of trees are the first root and the nodes of the row in which its branches
take its place. -/
theorem unfolds_row (a : α) (roots : List α) :
    Unfolds (nodeIn? next (a :: roots)) [0] a (regroup (next a).length)
      (nodeIn? next (next a ++ roots)) where
  lookup_first := rfl
  lookup_move place _ := nodeIn?_regroup a roots place
  move_lt_iff := regroup_lt_iff _
  first_lt place hPlace := by
    cases place with
    | nil => cases hPlace
    | cons i place =>
        rw [regroup]
        split <;> simp [List.cons_lt_cons_iff]
  cases place hPlace := by
    -- Which places are regrouped is seen from the first number, and from the second if it is zero.
    have hRegroup : ∀ other, regroup (next a).length other = place →
        ∃ other, (nodeIn? next (next a ++ roots) other).isSome ∧
          regroup (next a).length other = place := by
      rintro other rfl
      exact ⟨other, nodeIn?_regroup a roots other ▸ hPlace, rfl⟩
    match place with
    | [] => cases hPlace
    | [0] => exact Or.inl rfl
    | 0 :: i :: place =>
        right
        apply hRegroup (i :: place)
        have hBranch : i < (next a).length := by
          by_contra hNone
          have hAbsent : (next a)[i]? = none := List.getElem?_eq_none (Nat.le_of_not_lt hNone)
          simp [nodeIn?, node?, hAbsent] at hPlace
        rw [regroup, if_pos hBranch]
    | (i + 1) :: place =>
        right
        apply hRegroup ((i + (next a).length) :: place)
        rw [regroup, if_neg (by omega), Nat.add_sub_cancel]

end Acceptors.SearchTree
