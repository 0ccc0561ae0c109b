import Acceptors.Dfa.Equivalence
import Acceptors.Proofs.Dfa.Run
import Acceptors.Proofs.Discovery
import Acceptors.Proofs.Sorted.Lemmas

/-! Two states are indistinguishable if the same words lead from them to accept states. After
`k` refinement rounds, states share a class number exactly if no word of at most `k` symbols
tells them apart. The rounds end, and where a round adds no class, no longer word does. -/
namespace Acceptors.Dfa

variable {d : Dfa} {labels : Labelling} {q r : String}

/-- No word over the alphabet tells two states apart. -/
def Indistinguishable (d : Dfa) (q r : String) : Prop :=
  ∀ word : Word, (∀ a ∈ word, a ∈ d.alphabet) →
    (d.after q word ∈ d.accept ↔ d.after r word ∈ d.accept)

def AgreeUpTo (d : Dfa) (length : Nat) (q r : String) : Prop :=
  ∀ word : Word, word.length ≤ length → (∀ a ∈ word, a ∈ d.alphabet) →
    (d.after q word ∈ d.accept ↔ d.after r word ∈ d.accept)

namespace Indistinguishable

protected theorem symm (hSame : d.Indistinguishable q r) : d.Indistinguishable r q :=
  fun word hWord => (hSame word hWord).symm

protected theorem trans {s : String} (hLeft : d.Indistinguishable q r)
    (hRight : d.Indistinguishable r s) : d.Indistinguishable q s :=
  fun word hWord => (hLeft word hWord).trans (hRight word hWord)

/-- States that no word tells apart lead to such states. -/
theorem next (hSame : d.Indistinguishable q r) {a : Char} (ha : a ∈ d.alphabet) :
    d.Indistinguishable (d.next q a) (d.next r a) :=
  fun word hWord => hSame (a :: word) (List.forall_mem_cons.mpr ⟨ha, hWord⟩)

theorem mem_accept_iff (hSame : d.Indistinguishable q r) : q ∈ d.accept ↔ r ∈ d.accept :=
  hSame [] (by simp)

end Indistinguishable

/-- The empty word tells accept states from all others. -/
theorem agreeUpTo_zero_iff : d.AgreeUpTo 0 q r ↔ (q ∈ d.accept ↔ r ∈ d.accept) := by
  constructor
  · intro hAgree
    exact hAgree [] (Nat.le_refl 0) (by simp)
  · intro hAccept word hLength _
    have hEmpty := List.eq_nil_of_length_eq_zero (Nat.le_zero.mp hLength)
    rwa [hEmpty]

/-- A word that tells two states apart is empty or begins with a step to two states that the rest
tells apart. -/
theorem agreeUpTo_succ_iff {k : Nat} :
    d.AgreeUpTo (k + 1) q r ↔
      d.AgreeUpTo k q r ∧ ∀ a ∈ d.alphabet, d.AgreeUpTo k (d.next q a) (d.next r a) := by
  constructor
  · intro hAgree
    refine ⟨fun word hLength => hAgree word (Nat.le_succ_of_le hLength), ?_⟩
    intro a ha word hLength hWord
    exact hAgree (a :: word) (Nat.succ_le_succ hLength) (List.forall_mem_cons.mpr ⟨ha, hWord⟩)
  · intro hAgree word hLength hWord
    cases word with
    | nil => exact hAgree.1 [] (Nat.zero_le k) hWord
    | cons a word =>
        rw [List.forall_mem_cons] at hWord
        exact hAgree.2 a hWord.1 word (Nat.le_of_succ_le_succ hLength) hWord.2

/-- If one more symbol never tells more states apart, no word does. -/
theorem WellFormed.indistinguishable_of_stable (hd : d.WellFormed) {k : Nat}
    (hStable : ∀ q ∈ d.states, ∀ r ∈ d.states, d.AgreeUpTo k q r → d.AgreeUpTo (k + 1) q r)
    (hq : q ∈ d.states) (hr : r ∈ d.states) (hAgree : d.AgreeUpTo k q r) :
    d.Indistinguishable q r := by
  intro word hWord
  induction word generalizing q r with
  | nil => exact hAgree [] (Nat.zero_le k) hWord
  | cons a word ih =>
      rw [List.forall_mem_cons] at hWord
      have hNext := (agreeUpTo_succ_iff.mp (hStable q hq r hr hAgree)).2 a hWord.1
      exact ih (hd.next_mem hq hWord.1) (hd.next_mem hr hWord.1) hNext hWord.2

def labelled (d : Dfa) (f : String → Nat) : Labelling := d.states.toList.map fun q => (q, f q)

theorem classOf_labelled {f : String → Nat} (hq : q ∈ d.states) :
    (d.labelled f).classOf q = f q := by
  have hIn : (q, f q) ∈ d.labelled f := List.mem_map.mpr ⟨q, hq, rfl⟩
  obtain ⟨number, hNumber⟩ := exists_lookup_of_mem hIn
  obtain ⟨r, _, hPair⟩ := List.mem_map.mp (mem_of_lookup_eq_some hNumber)
  rw [Prod.mk.injEq] at hPair
  obtain ⟨rfl, rfl⟩ := hPair
  rw [Labelling.classOf, hNumber]
  rfl

theorem classCount_labelled (f : String → Nat) :
    (d.labelled f).classCount = (Discovery.distinct (d.states.toList.map f)).length := by
  rw [Labelling.classCount, labelled, List.map_map]
  rfl

/-- The different signatures of the states, in the order of their numbers. -/
def kinds (d : Dfa) (labels : Labelling) : List (List Nat) :=
  Discovery.distinct (d.states.toList.map (d.signature labels))

/-- A round numbers the states by their signatures. -/
theorem refine_eq_labelled (labels : Labelling) :
    d.refine labels = d.labelled fun q => (d.kinds labels).idxOf (d.signature labels q) := by
  rw [labelled, List.map_prod_left_eq_zip, refine, List.map_map]
  rfl

/-- States with the same signature are in one class, and so are their successors on every symbol.
-/
theorem signature_eq_iff :
    d.signature labels q = d.signature labels r ↔ labels.classOf q = labels.classOf r ∧
      ∀ a ∈ d.alphabet, labels.classOf (d.next q a) = labels.classOf (d.next r a) := by
  rw [signature, signature, List.cons.injEq, List.map_inj_left]
  rfl

/-- A labelling of all states that gives two states the same number exactly if they are
related. -/
structure Separates (d : Dfa) (labels : Labelling) (related : String → String → Prop) : Prop where
  eq_labelled : labels = d.labelled labels.classOf
  classOf_eq_iff : ∀ q ∈ d.states, ∀ r ∈ d.states,
    labels.classOf q = labels.classOf r ↔ related q r

theorem separates_labelled {f : String → Nat} {related : String → String → Prop}
    (hRelated : ∀ q ∈ d.states, ∀ r ∈ d.states, f q = f r ↔ related q r) :
    d.Separates (d.labelled f) related := by
  constructor
  · apply List.map_congr_left
    intro q hq
    rw [classOf_labelled hq]
  · intro q hq r hr
    rw [classOf_labelled hq, classOf_labelled hr]
    exact hRelated q hq r hr

/-- Before the first round, states are told apart by the empty word only. -/
theorem separates_acceptanceLabels : d.Separates d.acceptanceLabels (d.AgreeUpTo 0) := by
  apply separates_labelled
  intro q _ r _
  rw [agreeUpTo_zero_iff]
  by_cases hq : q ∈ d.accept <;> by_cases hr : r ∈ d.accept <;> simp [hq, hr]

namespace Separates

variable {related : String → String → Prop}

theorem mono {other : String → String → Prop} (hLabels : d.Separates labels related)
    (hOther : ∀ q ∈ d.states, ∀ r ∈ d.states, related q r ↔ other q r) :
    d.Separates labels other :=
  ⟨hLabels.eq_labelled, fun q hq r hr =>
    (hLabels.classOf_eq_iff q hq r hr).trans (hOther q hq r hr)⟩

/-- One round separates what the class or the class of a successor separates. -/
theorem refine_labels (hd : d.WellFormed) (hLabels : d.Separates labels related) :
    d.Separates (d.refine labels) fun q r =>
      related q r ∧ ∀ a ∈ d.alphabet, related (d.next q a) (d.next r a) := by
  rw [refine_eq_labelled]
  apply separates_labelled
  intro q hq r hr
  have hKind : d.signature labels q ∈ d.kinds labels :=
    Discovery.mem_distinct.mpr (List.mem_map_of_mem hq)
  rw [List.idxOf_inj hKind, signature_eq_iff, hLabels.classOf_eq_iff q hq r hr]
  refine and_congr_right fun _ => forall_congr' fun a => imp_congr_right fun ha => ?_
  exact hLabels.classOf_eq_iff _ (hd.next_mem hq ha) _ (hd.next_mem hr ha)

/-- With every round, words that are one symbol longer are taken into account. -/
theorem refine_agree (hd : d.WellFormed) {k : Nat} (hLabels : d.Separates labels (d.AgreeUpTo k)) :
    d.Separates (d.refine labels) (d.AgreeUpTo (k + 1)) :=
  (hLabels.refine_labels hd).mono fun _ _ _ _ => agreeUpTo_succ_iff.symm

theorem classCount_eq (hLabels : d.Separates labels related) :
    labels.classCount = (Discovery.distinct (d.states.toList.map labels.classOf)).length := by
  conv_lhs => rw [hLabels.eq_labelled]
  exact classCount_labelled labels.classOf

/-- The classes after a round are parts of the classes before it. -/
private theorem finer (hd : d.WellFormed) {k : Nat} (hLabels : d.Separates labels (d.AgreeUpTo k)) :
    ∀ q ∈ d.states.toList, ∀ r ∈ d.states.toList,
      (d.refine labels).classOf q = (d.refine labels).classOf r →
        labels.classOf q = labels.classOf r := by
  intro q hq r hr hEq
  have hAgree := ((hLabels.refine_agree hd).classOf_eq_iff q hq r hr).mp hEq
  exact (hLabels.classOf_eq_iff q hq r hr).mpr (agreeUpTo_succ_iff.mp hAgree).1

/-- A round may split classes and never joins them. -/
theorem classCount_le_refine (hd : d.WellFormed) {k : Nat}
    (hLabels : d.Separates labels (d.AgreeUpTo k)) :
    labels.classCount ≤ (d.refine labels).classCount := by
  rw [hLabels.classCount_eq, (hLabels.refine_agree hd).classCount_eq]
  exact Discovery.length_distinct_map_le (hLabels.finer hd)

/-- A round that adds no class ends the refinement for good. -/
theorem indistinguishable_of_classCount_eq (hd : d.WellFormed) {k : Nat}
    (hLabels : d.Separates labels (d.AgreeUpTo k))
    (hCount : (d.refine labels).classCount = labels.classCount) :
    d.Separates (d.refine labels) d.Indistinguishable := by
  have hRefined := hLabels.refine_agree hd
  rw [hLabels.classCount_eq, hRefined.classCount_eq] at hCount
  have hCoarser := Discovery.eq_of_length_distinct_map_le (hLabels.finer hd) hCount.le
  have hStable : ∀ q ∈ d.states, ∀ r ∈ d.states, d.AgreeUpTo k q r → d.AgreeUpTo (k + 1) q r := by
    intro q hq r hr hAgree
    have hClass := (hLabels.classOf_eq_iff q hq r hr).mpr hAgree
    exact (hRefined.classOf_eq_iff q hq r hr).mp (hCoarser q hq r hr hClass)
  refine hRefined.mono fun q hq r hr => ⟨fun hAgree => ?_, fun hSame word _ => hSame word⟩
  exact hd.indistinguishable_of_stable hStable hq hr (agreeUpTo_succ_iff.mp hAgree).1

end Separates

/-- Refinement without a bound on the rounds: it goes on while a round adds a class. -/
inductive Settles (d : Dfa) : Labelling → Labelling → Prop where
  | stop {labels : Labelling} (same : (d.refine labels).classCount = labels.classCount) :
      Settles d labels (d.refine labels)
  | round {labels result : Labelling} (more : (d.refine labels).classCount ≠ labels.classCount)
      (rest : Settles d (d.refine labels) result) : Settles d labels result

namespace WellFormed

variable (hd : d.WellFormed)
include hd

/-- Each round but the last adds a class, and there are no more classes than states. -/
theorem settle_settles {k rounds : Nat} (hLabels : d.Separates labels (d.AgreeUpTo k))
    (hRounds : d.states.size < rounds + labels.classCount) :
    d.Settles labels (d.settle rounds labels) := by
  induction rounds generalizing labels k with
  | zero =>
      have hCount : labels.classCount ≤ d.states.size := by
        rw [hLabels.classCount_eq, Discovery.length_distinct]
        refine (List.toFinset_card_le _).trans ?_
        rw [List.length_map, SortedSet.size]
      omega
  | succ rounds ih =>
      rw [settle]
      have hGrowth := hLabels.classCount_le_refine hd
      by_cases hCount : (d.refine labels).classCount = labels.classCount
      · rw [if_pos hCount]
        exact .stop hCount
      · rw [if_neg hCount]
        refine .round hCount (ih (hLabels.refine_agree hd) ?_)
        omega

/-- As many rounds as there are states are enough for refinement to end by itself. -/
theorem settles_classes :
    d.Settles d.acceptanceLabels (d.settle d.states.size d.acceptanceLabels) := by
  refine hd.settle_settles separates_acceptanceLabels ?_
  have hStart : (if d.start ∈ d.accept then 1 else 0) ∈ Discovery.distinct
      (d.states.toList.map fun q => if q ∈ d.accept then 1 else 0) :=
    Discovery.mem_distinct.mpr (List.mem_map.mpr ⟨d.start, hd.start_mem, rfl⟩)
  have hCount : 0 < d.acceptanceLabels.classCount := by
    change 0 < (d.labelled fun q => if q ∈ d.accept then 1 else 0).classCount
    rw [classCount_labelled]
    exact List.length_pos_of_mem hStart
  omega

end WellFormed

namespace Settles

variable {result : Labelling}

/-- The labelling in which refinement ends numbers the classes of indistinguishable states. -/
theorem separates (run : d.Settles labels result) (hd : d.WellFormed) {k : Nat}
    (hLabels : d.Separates labels (d.AgreeUpTo k)) : d.Separates result d.Indistinguishable := by
  induction run generalizing k with
  | stop same => exact hLabels.indistinguishable_of_classCount_eq hd same
  | round _ _ ih => exact ih (hLabels.refine_agree hd)

/-- Refinement ends with the labelling of a round, as it makes at least one. -/
theorem exists_eq_refine (run : d.Settles labels result) : ∃ last, result = d.refine last := by
  induction run with
  | stop _ => exact ⟨_, rfl⟩
  | round _ _ ih => exact ih

/-- Refinement has one result. -/
theorem unique {other : Labelling} (run : d.Settles labels result)
    (second : d.Settles labels other) :
    result = other := by
  induction run with
  | stop same =>
      cases second with
      | stop _ => rfl
      | round more _ => exact absurd same more
  | round more _ ih =>
      cases second with
      | stop same => exact absurd same more
      | round _ rest => exact ih rest

end Settles

/-- A round uses as many class numbers as there are signatures. -/
theorem classCount_refine (labels : Labelling) :
    (d.refine labels).classCount = (d.kinds labels).length := by
  have hKind : ∀ q ∈ d.states.toList, d.signature labels q ∈ d.kinds labels := fun q hq =>
    Discovery.mem_distinct.mpr (List.mem_map_of_mem hq)
  rw [refine_eq_labelled, classCount_labelled]
  apply Nat.le_antisymm
  · apply Discovery.length_distinct_map_le
    intro q _ r _ hEq
    rw [hEq]
  · apply Discovery.length_distinct_map_le
    intro q hq r _ hEq
    exact (List.idxOf_inj (hKind q hq)).mp hEq

theorem classOf_refine_lt (hq : q ∈ d.states) :
    (d.refine labels).classOf q < (d.refine labels).classCount := by
  rw [classCount_refine, refine_eq_labelled, classOf_labelled hq]
  exact List.idxOf_lt_length_of_mem (Discovery.mem_distinct.mpr (List.mem_map_of_mem hq))

/-- The class number of a state is the place of its signature. -/
theorem classOf_refine_eq_iff (hq : q ∈ d.states) {number : Nat}
    (hNumber : number < (d.kinds labels).length) :
    (d.refine labels).classOf q = number ↔ d.signature labels q = (d.kinds labels)[number] := by
  rw [refine_eq_labelled, classOf_labelled hq]
  constructor
  · rintro rfl
    exact (List.getElem_idxOf hNumber).symm
  · intro hSignature
    rw [hSignature]
    exact (Discovery.nodup_distinct _).idxOf_getElem number hNumber

/-- A round leaves no number out. -/
theorem exists_classOf_refine_eq {number : Nat} (hNumber : number < (d.refine labels).classCount) :
    ∃ q ∈ d.states, (d.refine labels).classOf q = number := by
  rw [classCount_refine] at hNumber
  have hKind := Discovery.mem_distinct.mp (List.getElem_mem hNumber)
  obtain ⟨q, hq, hSignature⟩ := List.mem_map.mp hKind
  exact ⟨q, hq, (classOf_refine_eq_iff hq hNumber).mpr hSignature⟩

/-! The groups that the classes are listed in. -/

theorem mem_classes_iff {members : List String} :
    members ∈ d.classes ↔ ∃ number < (d.settle d.states.size d.acceptanceLabels).classCount,
      (d.states.toList.filter fun q => decide
        ((d.settle d.states.size d.acceptanceLabels).classOf q = number)) = members := by
  simp only [classes, List.mem_map, List.mem_range]

/-- A state is in one group only. -/
theorem class_unique {members others : List String} (hMembers : members ∈ d.classes)
    (hOthers : others ∈ d.classes) (hq : q ∈ members) (hOther : q ∈ others) :
    members = others := by
  obtain ⟨number, _, rfl⟩ := mem_classes_iff.mp hMembers
  obtain ⟨other, _, rfl⟩ := mem_classes_iff.mp hOthers
  rw [List.mem_filter, decide_eq_true_eq] at hq hOther
  rw [← hq.2, ← hOther.2]

namespace WellFormed

variable {members : List String} (hd : d.WellFormed)
include hd

/-- Unreachable states have a class too. -/
theorem exists_mem_classes (hq : q ∈ d.states) : ∃ members ∈ d.classes, q ∈ members := by
  obtain ⟨last, hLast⟩ := hd.settles_classes.exists_eq_refine
  refine ⟨_, mem_classes_iff.mpr ⟨_, ?_, rfl⟩, List.mem_filter.mpr ⟨hq, decide_eq_true rfl⟩⟩
  rw [hLast]
  exact classOf_refine_lt hq

theorem class_ne_nil (hMembers : members ∈ d.classes) : members ≠ [] := by
  obtain ⟨number, hNumber, rfl⟩ := mem_classes_iff.mp hMembers
  obtain ⟨last, hLast⟩ := hd.settles_classes.exists_eq_refine
  rw [hLast] at hNumber ⊢
  obtain ⟨q, hq, hClass⟩ := exists_classOf_refine_eq hNumber
  exact List.ne_nil_of_mem (List.mem_filter.mpr ⟨hq, decide_eq_true hClass⟩)

/-- Each group is the class of any of its members. -/
theorem mem_class_iff (hMembers : members ∈ d.classes) (hq : q ∈ members) :
    r ∈ members ↔ r ∈ d.states ∧ d.Indistinguishable q r := by
  have hSeparates := hd.settles_classes.separates hd separates_acceptanceLabels
  obtain ⟨number, _, rfl⟩ := mem_classes_iff.mp hMembers
  rw [List.mem_filter, decide_eq_true_eq] at hq ⊢
  apply and_congr_right
  intro hr
  rw [← hq.2, eq_comm]
  exact hSeparates.classOf_eq_iff q hq.1 r hr

theorem mem_states_of_mem_class (hMembers : members ∈ d.classes) (hq : q ∈ members) :
    q ∈ d.states :=
  ((hd.mem_class_iff hMembers hq).mp hq).1

end WellFormed

end Acceptors.Dfa
