import Acceptors.Proofs.Dfa.Minimization

/-! The classes of equivalent states, merged one after another. A merge turns whatever leads to a
state of the class to the one state that is kept, and drops the others. The automaton is well
formed after every single merge, and after the last it is the one on representatives. -/
namespace Acceptors.Dfa

variable {d : Dfa} {members : List String} {groups : List (List String)} {q : String}

/-- The automaton in which one state of a group takes the place of all of them. -/
def collapse (d : Dfa) (members : List String) : Dfa :=
  let kept := d.representative members
  let eliminated := members.filter fun q => decide (q ≠ kept)
  { d with
    states := d.states.filter fun q => decide (q ∉ eliminated)
    accept := d.accept.filter fun q => decide (q ∉ eliminated)
    table := (d.table.mapValues fun r => if r ∈ eliminated then kept else r).filterKeys
      fun key => decide (key.1 ∉ eliminated) }

/-- The automaton after the groups have been merged in order. A group of one state stays as it
is. -/
def collapseAll (d : Dfa) (groups : List (List String)) : Dfa :=
  groups.foldl (fun d members => if 1 < members.length then d.collapse members else d) d

def substitute (d : Dfa) (members : List String) (state : String) : String :=
  if state ∈ members then d.representative members else state

theorem substitute_of_not_mem (hq : q ∉ members) : d.substitute members q = q := if_neg hq

/-- The start state is kept when its group is merged. -/
theorem substitute_start : d.substitute members d.start = d.start := by
  rw [substitute]
  by_cases hStart : d.start ∈ members
  · rw [if_pos hStart, representative, if_pos hStart]
  · rw [if_neg hStart]

/-- The kept state is one of the group. -/
theorem substitute_mem_members (hq : q ∈ members) : d.substitute members q ∈ members := by
  rw [substitute, if_pos hq]
  exact representative_mem (List.ne_nil_of_mem hq)

theorem substitute_substitute :
    d.substitute members (d.substitute members q) = d.substitute members q := by
  by_cases hq : q ∈ members
  · rw [substitute, if_pos (substitute_mem_members hq), substitute, if_pos hq]
  · rw [substitute_of_not_mem hq, substitute_of_not_mem hq]

theorem substitute_mem_states (hMembers : ∀ q ∈ members, q ∈ d.states) (hq : q ∈ d.states) :
    d.substitute members q ∈ d.states := by
  by_cases hIn : q ∈ members
  · exact hMembers _ (substitute_mem_members hIn)
  · rwa [substitute_of_not_mem hIn]

/-- A state of the group is eliminated if another state takes its place. -/
theorem mem_eliminated_iff :
    q ∈ members.filter (fun q => decide (q ≠ d.representative members)) ↔
      d.substitute members q ≠ q := by
  rw [List.mem_filter, decide_eq_true_eq, substitute]
  by_cases hq : q ∈ members
  · rw [if_pos hq, and_iff_right hq]
    exact ne_comm
  · simp [hq]

/-- To merge a group is to replace its members by the one that is kept. -/
theorem collapse_eq_mergeBy : d.collapse members = d.mergeBy (d.substitute members) := by
  have hTarget : (fun r => if r ∈ members.filter (fun q => decide (q ≠ d.representative members))
      then d.representative members else r) = d.substitute members := by
    funext r
    by_cases hr : r ∈ members
    · by_cases hKept : r = d.representative members <;> simp [substitute, hr, hKept]
    · simp [substitute, hr]
  refine eq_of_parts rfl ?_ rfl ?_ ?_
  · intro q
    change q ∈ d.states.filter _ ↔ _
    rw [SortedSet.mem_filter, decide_eq_true_eq, mem_eliminated_iff, not_not, mem_mergeBy_states]
  · intro q
    change q ∈ d.accept.filter _ ↔ _
    rw [SortedSet.mem_filter, decide_eq_true_eq, mem_eliminated_iff, not_not, mem_mergeBy_accept]
  · intro q a
    change ((d.table.mapValues _).filterKeys _).get? (q, a) = _
    rw [SortedMap.get?_filterKeys, SortedMap.get?_mapValues, mergeBy_next?, hTarget]
    simp only [decide_eq_true_eq, mem_eliminated_iff, not_not]
    rfl

/-- Merging a group of at most one state changes nothing. -/
theorem mergeBy_substitute_of_length_le (hLength : members.length ≤ 1) :
    d.mergeBy (d.substitute members) = d := by
  apply mergeBy_eq_self
  intro q
  by_cases hq : q ∈ members
  · obtain ⟨r, hr⟩ := List.length_eq_one_iff.mp
      (Nat.le_antisymm hLength (List.length_pos_of_mem hq))
    have hKept := substitute_mem_members (d := d) hq
    rw [hr, List.mem_singleton] at hq
    rw [hr, List.mem_singleton] at hKept
    rw [hr, hKept, hq]
  · exact substitute_of_not_mem hq

/-- A group of one state may be merged like the others, since that changes nothing. -/
theorem collapseAll_cons :
    d.collapseAll (members :: groups) =
      (d.mergeBy (d.substitute members)).collapseAll groups := by
  rw [collapseAll, List.foldl_cons, ← collapseAll]
  by_cases hLength : 1 < members.length
  · rw [if_pos hLength, collapse_eq_mergeBy]
  · rw [if_neg hLength, mergeBy_substitute_of_length_le (Nat.le_of_not_lt hLength)]

/-! Well-formedness, through one merge and through all of them. -/

/-- Nothing is asked of the group but that its members are states. -/
theorem WellFormed.wellFormed_mergeBy_substitute (hd : d.WellFormed)
    (hMembers : ∀ q ∈ members, q ∈ d.states) :
    (d.mergeBy (d.substitute members)).WellFormed :=
  hd.wellFormed_mergeBy substitute_start fun _ hq =>
    ⟨substitute_mem_states hMembers hq, substitute_substitute⟩

/-- As long as the groups have no state in common, the states of the next one are still there. -/
theorem WellFormed.wellFormed_collapseAll (hd : d.WellFormed)
    (hDisjoint : groups.Pairwise List.Disjoint)
    (hStates : ∀ members ∈ groups, ∀ q ∈ members, q ∈ d.states) :
    (d.collapseAll groups).WellFormed := by
  induction groups generalizing d with
  | nil => exact hd
  | cons members groups ih =>
      rw [List.pairwise_cons] at hDisjoint
      rw [List.forall_mem_cons] at hStates
      rw [collapseAll_cons]
      apply ih (hd.wellFormed_mergeBy_substitute hStates.1) hDisjoint.2
      intro others hOthers q hq
      have hApart : q ∉ members := fun hBoth => hDisjoint.1 others hOthers hBoth hq
      exact mem_mergeBy_states.mpr
        ⟨hStates.2 others hOthers q hq, substitute_of_not_mem hApart⟩

/-! The result of all merges. -/

theorem representativeOf_cons :
    d.representativeOf (members :: groups) q =
      if q ∈ members then d.representative members else d.representativeOf groups q := by
  rw [representativeOf, List.find?_cons]
  by_cases hq : q ∈ members
  · simp [hq]
  · simp [hq, representativeOf]

theorem representativeOf_of_forall_not_mem (hq : ∀ members ∈ groups, q ∉ members) :
    d.representativeOf groups q = q := by
  have hNone : (groups.find? fun members => decide (q ∈ members)) = none := by
    simpa using hq
  rw [representativeOf, hNone]

/-- After one group has been merged, the others stand in for the rest. -/
theorem representativeOf_substitute (hDisjoint : ∀ others ∈ groups, members.Disjoint others) :
    d.representativeOf groups (d.substitute members q) =
      d.representativeOf (members :: groups) q := by
  rw [representativeOf_cons]
  by_cases hq : q ∈ members
  · have hKept := substitute_mem_members (d := d) hq
    rw [if_pos hq, representativeOf_of_forall_not_mem fun others hOthers hIn =>
      hDisjoint others hOthers hKept hIn, substitute, if_pos hq]
  · rw [if_neg hq, substitute_of_not_mem hq]

/-- With disjoint groups, a state is kept in the end if no single merge drops it. -/
theorem representativeOf_cons_eq_self_iff
    (hDisjoint : ∀ others ∈ groups, members.Disjoint others) :
    d.representativeOf (members :: groups) q = q ↔
      d.substitute members q = q ∧ d.representativeOf groups q = q := by
  rw [representativeOf_cons]
  by_cases hq : q ∈ members
  · rw [if_pos hq, substitute, if_pos hq, representativeOf_of_forall_not_mem
      fun others hOthers hIn => hDisjoint others hOthers hq hIn, and_iff_left rfl]
  · rw [if_neg hq, substitute_of_not_mem hq, and_iff_right rfl]

/-- Merges of disjoint groups do not interfere, so that they come to one merge. -/
theorem collapseAll_eq_mergeBy (hDisjoint : groups.Pairwise List.Disjoint) :
    d.collapseAll groups = d.mergeBy (d.representativeOf groups) := by
  induction groups generalizing d with
  | nil => exact (mergeBy_eq_self fun _ => rfl).symm
  | cons members groups ih =>
      rw [List.pairwise_cons] at hDisjoint
      have hSame : (d.mergeBy (d.substitute members)).representativeOf groups =
          d.representativeOf groups := rfl
      rw [collapseAll_cons, ih hDisjoint.2, hSame, mergeBy_mergeBy]
      · congr 1
        funext q
        exact representativeOf_substitute hDisjoint.1
      · intro q
        rw [representativeOf_substitute hDisjoint.1]
        exact representativeOf_cons_eq_self_iff hDisjoint.1

theorem pairwise_disjoint_classes : d.classes.Pairwise List.Disjoint := by
  rw [classes, List.pairwise_map]
  apply List.nodup_range.imp
  intro number other hNe q hq hOther
  rw [List.mem_filter, decide_eq_true_eq] at hq hOther
  exact hNe (hq.2.symm.trans hOther.2)

namespace WellFormed

variable (hd : d.WellFormed)
include hd

/-- Merging class after class gives the automaton on representatives. -/
theorem quotient_eq_collapseAll : d.quotient = d.collapseAll d.classes := by
  rw [hd.quotient_eq_mergeBy, collapseAll_eq_mergeBy pairwise_disjoint_classes]
  rfl

/-- Minimization merges the classes of the trimmed automaton one after another. -/
theorem minimize_eq_collapseAll : d.minimize = d.trim.collapseAll d.trim.classes :=
  hd.wellFormed_trim.quotient_eq_collapseAll

/-- Between two merges, nothing is missing from the table and nothing in it is undeclared. -/
theorem wellFormed_collapseAll_take (count : Nat) :
    (d.collapseAll (d.classes.take count)).WellFormed := by
  apply hd.wellFormed_collapseAll (pairwise_disjoint_classes.sublist (List.take_sublist count _))
  intro members hMembers q hq
  exact hd.mem_states_of_mem_class (List.mem_of_mem_take hMembers) hq

end WellFormed

end Acceptors.Dfa
