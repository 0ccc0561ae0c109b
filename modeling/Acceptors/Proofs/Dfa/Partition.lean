import Acceptors.Proofs.Dfa.Nerode
import Acceptors.Proofs.Validation

/-! The groups that partition refinement ends with. They part the states, whether reachable or not,
by the words that lead from them to accept states. Classes are numbered in the order in which
their first states come, so the groups are listed by their least members. -/
namespace Acceptors.Dfa

open KeyOrder

variable {d : Dfa} {labels : Labelling} {members : List String} {q r : String}

def groups (d : Dfa) (labels : Labelling) : List (List String) :=
  (List.range labels.classCount).map fun number =>
    d.states.toList.filter fun q => decide (labels.classOf q = number)

theorem classes_eq_groups :
    d.classes = d.groups (d.settle d.states.size d.acceptanceLabels) := rfl

/-- After a round, groups come in the order of their first states. -/
theorem pairwise_groups_refine (labels : Labelling) :
    (d.groups (d.refine labels)).Pairwise fun first second =>
      ∃ p ∈ first, ∀ q ∈ second, before p q = true := by
  have hKinds : (d.kinds labels).Pairwise _ :=
    Discovery.pairwise_distinct_map (f := d.signature labels) d.states.ascending
  rw [groups, List.pairwise_map]
  apply List.pairwise_lt_range.imp_of_mem
  intro i j hi hj hLess
  rw [List.mem_range, classCount_refine] at hi hj
  obtain ⟨p, hp, hFirst, hBefore⟩ := List.pairwise_iff_getElem.mp hKinds i j hi hj hLess
  -- Each kind is numbered where it comes first, and this is the least member of its group.
  have hNumber := (classOf_refine_eq_iff hp hi).mpr hFirst
  refine ⟨p, List.mem_filter.mpr ⟨hp, decide_eq_true hNumber⟩, fun q hq => ?_⟩
  rw [List.mem_filter, decide_eq_true_eq] at hq
  exact hBefore q hq.1 ((classOf_refine_eq_iff hq.1 hj).mp hq.2)

/-- A partition of all states into groups of states that no word tells apart. Groups are listed
by their least members, and the members of a group in ascending order. -/
structure IsNerodePartition (d : Dfa) (groups : List (List String)) : Prop where
  existsUnique_group : ∀ q ∈ d.states, ∃! members, members ∈ groups ∧ q ∈ members
  mem_states : ∀ members ∈ groups, ∀ q ∈ members, q ∈ d.states
  ne_nil : ∀ members ∈ groups, members ≠ []
  members_ascend : ∀ members ∈ groups, members.Pairwise fun p q => before p q = true
  /-- Of any two groups, the one that is listed first has the least member of both. -/
  groups_ascend : groups.Pairwise fun first second =>
    ∃ p ∈ first, ∀ q ∈ second, before p q = true
  same_group_iff : ∀ q ∈ d.states, ∀ r ∈ d.states,
    (∃ members ∈ groups, q ∈ members ∧ r ∈ members) ↔
      ∀ word : Word, (∀ a ∈ word, a ∈ d.alphabet) →
        (d.after q word ∈ d.accept ↔ d.after r word ∈ d.accept)

/-- The classes that refinement ends with are such a partition. -/
theorem WellFormed.isNerodePartition_classes (hd : d.WellFormed) :
    d.IsNerodePartition d.classes where
  existsUnique_group q hq := by
    obtain ⟨members, hMembers, hIn⟩ := hd.exists_mem_classes hq
    exact ⟨members, ⟨hMembers, hIn⟩, fun others hOthers =>
      class_unique hOthers.1 hMembers hOthers.2 hIn⟩
  mem_states members hMembers q hq := hd.mem_states_of_mem_class hMembers hq
  ne_nil members hMembers := hd.class_ne_nil hMembers
  members_ascend members hMembers := by
    obtain ⟨number, _, rfl⟩ := mem_classes_iff.mp hMembers
    exact d.states.ascending.filter _
  groups_ascend := by
    obtain ⟨last, hLast⟩ := hd.settles_classes.exists_eq_refine
    rw [classes_eq_groups, hLast]
    exact pairwise_groups_refine last
  same_group_iff q hq r hr := by
    constructor
    · intro hGroup
      obtain ⟨members, hMembers, hIn, hBoth⟩ := hGroup
      exact ((hd.mem_class_iff hMembers hIn).mp hBoth).2
    · intro hSame
      obtain ⟨members, hMembers, hIn⟩ := hd.exists_mem_classes hq
      exact ⟨members, hMembers, hIn, (hd.mem_class_iff hMembers hIn).mpr ⟨hr, hSame⟩⟩

/-- Refinement ends with one labelling, and the states that it numbers alike are those that no word
tells apart. -/
theorem classes_partition_states (d : Dfa) (hValid : d.validate = .ok d) :
    (∃ labels, d.Settles d.acceptanceLabels labels ∧
      (∀ result, d.Settles d.acceptanceLabels result → result = labels) ∧
      d.classes = d.groups labels) ∧
    d.IsNerodePartition d.classes := by
  have hd := (validate_eq_ok_iff.mp hValid).1
  refine ⟨⟨_, hd.settles_classes, ?_, classes_eq_groups⟩, hd.isNerodePartition_classes⟩
  intro result run
  exact run.unique hd.settles_classes

/-- Leads to `4`, which accepts, by as many steps as are left. The state `5` is one step away as
`3` is, and no word leads to it. -/
def steps : Dfa where
  alphabet := Alphabet.ofString "a"
  states := SortedSet.ofList ["0", "1", "2", "3", "4", "5"]
  start := "0"
  accept := SortedSet.ofList ["4"]
  table := SortedMap.ofList [(("0", 'a'), "1"), (("1", 'a'), "2"), (("2", 'a'), "3"),
    (("3", 'a'), "4"), (("4", 'a'), "4"), (("5", 'a'), "4")]

/-- The unreachable `5` is in the class of `3`, and it takes a word of three symbols to tell `0`
from `1`. -/
theorem classes_partition_states_steps :
    steps.validate = .ok steps ∧
      steps.classes = [["0"], ["1"], ["2"], ["3", "5"], ["4"]] ∧
      (∀ word : Word, (∀ a ∈ word, a ∈ steps.alphabet) →
        (steps.after "3" word ∈ steps.accept ↔ steps.after "5" word ∈ steps.accept)) ∧
      ¬ ∀ word : Word, (∀ a ∈ word, a ∈ steps.alphabet) →
        (steps.after "0" word ∈ steps.accept ↔ steps.after "1" word ∈ steps.accept) := by
  have hValid : steps.validate = .ok steps :=
    validate_eq_ok_iff.mpr ⟨faults_eq_nil_iff.mp (by decide), rfl⟩
  have hClasses : steps.classes = [["0"], ["1"], ["2"], ["3", "5"], ["4"]] := by decide
  have hSame := (classes_partition_states steps hValid).2.same_group_iff
  rw [hClasses] at hSame
  refine ⟨hValid, hClasses, (hSame "3" (by decide) "5" (by decide)).mp (by decide), ?_⟩
  rw [← hSame "0" (by decide) "1" (by decide)]
  decide

end Acceptors.Dfa
