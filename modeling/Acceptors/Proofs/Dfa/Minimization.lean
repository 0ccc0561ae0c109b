import Acceptors.Proofs.Dfa.Merge
import Acceptors.Proofs.Dfa.Nerode
import Acceptors.Proofs.Dfa.Reachability
import Acceptors.Proofs.Validation

/-! The automaton on representatives follows the run of the original: after every word it is in
the state that stands for the state of the original. Its states are all reachable if those of
the original are, and no two of them are indistinguishable. -/
namespace Acceptors.Dfa

variable {d : Dfa} {q r : String}

def Reduced (d : Dfa) : Prop :=
  ∀ q ∈ d.states, ∀ r ∈ d.states, d.Indistinguishable q r → q = r

def standIn (d : Dfa) (state : String) : String := d.representativeOf d.classes state

/-- The state that is kept of a group is one of its members. -/
theorem representative_mem {members : List String} (hNonempty : members ≠ []) :
    d.representative members ∈ members := by
  rw [representative]
  by_cases hStart : d.start ∈ members
  · rwa [if_pos hStart]
  · rw [if_neg hStart]
    cases members with
    | nil => exact absurd rfl hNonempty
    | cons q members => exact List.mem_cons_self

/-- One state stands for all members of a class. -/
theorem standIn_eq {members : List String} (hMembers : members ∈ d.classes) (hq : q ∈ members) :
    d.standIn q = d.representative members := by
  rw [standIn, representativeOf]
  cases hFind : d.classes.find? fun members => decide (q ∈ members) with
  | none =>
      have hNone := List.find?_eq_none.mp hFind members hMembers
      simp [hq] at hNone
  | some found =>
      have hFound : q ∈ found := by simpa using List.find?_some hFind
      rw [class_unique hMembers (List.mem_of_find?_eq_some hFind) hq hFound]

namespace WellFormed

variable (hd : d.WellFormed)
include hd

/-- A state and its stand-in are in the same class. -/
theorem exists_class_standIn (hq : q ∈ d.states) :
    ∃ members ∈ d.classes, q ∈ members ∧ d.standIn q ∈ members := by
  obtain ⟨members, hMembers, hIn⟩ := hd.exists_mem_classes hq
  have hStandIn := representative_mem (d := d) (hd.class_ne_nil hMembers)
  rw [← standIn_eq hMembers hIn] at hStandIn
  exact ⟨members, hMembers, hIn, hStandIn⟩

theorem standIn_mem (hq : q ∈ d.states) : d.standIn q ∈ d.states := by
  obtain ⟨members, hMembers, _, hStandIn⟩ := hd.exists_class_standIn hq
  exact hd.mem_states_of_mem_class hMembers hStandIn

/-- No word tells a state from the one that stands for it. -/
theorem indistinguishable_standIn (hq : q ∈ d.states) : d.Indistinguishable q (d.standIn q) := by
  obtain ⟨members, hMembers, hIn, hStandIn⟩ := hd.exists_class_standIn hq
  exact ((hd.mem_class_iff hMembers hIn).mp hStandIn).2

/-- Exactly the indistinguishable states share their stand-in. -/
theorem standIn_eq_iff (hq : q ∈ d.states) (hr : r ∈ d.states) :
    d.standIn q = d.standIn r ↔ d.Indistinguishable q r := by
  constructor
  · intro hEq
    have hBoth := hd.indistinguishable_standIn hr
    rw [← hEq] at hBoth
    exact (hd.indistinguishable_standIn hq).trans hBoth.symm
  · intro hSame
    obtain ⟨members, hMembers, hIn⟩ := hd.exists_mem_classes hq
    have hOther : r ∈ members := (hd.mem_class_iff hMembers hIn).mpr ⟨hr, hSame⟩
    rw [standIn_eq hMembers hIn, standIn_eq hMembers hOther]

theorem standIn_standIn (hq : q ∈ d.states) : d.standIn (d.standIn q) = d.standIn q :=
  (hd.standIn_eq_iff (hd.standIn_mem hq) hq).mpr (hd.indistinguishable_standIn hq).symm

/-- The start state stands for its class, whatever the order of names. -/
theorem standIn_start : d.standIn d.start = d.start := by
  obtain ⟨members, hMembers, hIn⟩ := hd.exists_mem_classes hd.start_mem
  rw [standIn_eq hMembers hIn, representative, if_pos hIn]

end WellFormed

/-- Only the states that stand for a class have rows, and they lead to such states. -/
theorem quotient_next? (a : Char) :
    d.quotient.next? q a = if d.standIn q = q then (d.next? q a).map d.standIn else none := by
  change ((d.table.filterKeys fun key => decide (d.standIn key.1 = key.1)).mapValues
    d.standIn).get? (q, a) = _
  rw [SortedMap.get?_mapValues, SortedMap.get?_filterKeys]
  by_cases hKept : d.standIn q = q <;> simp [hKept, next?]

theorem mem_quotient_accept : q ∈ d.quotient.accept ↔ q ∈ d.accept ∧ d.standIn q = q := by
  change q ∈ d.accept.filter (fun q => decide (d.standIn q = q)) ↔ _
  rw [SortedSet.mem_filter, decide_eq_true_eq]

namespace WellFormed

variable (hd : d.WellFormed)
include hd

/-- The states are those that stand for some state. -/
theorem mem_quotient_states : q ∈ d.quotient.states ↔ ∃ p ∈ d.states, d.standIn p = q := by
  change q ∈ SortedSet.ofList (d.classes.map d.representative) ↔ _
  rw [SortedSet.mem_ofList, List.mem_map]
  constructor
  · intro hClass
    obtain ⟨members, hMembers, hEq⟩ := hClass
    obtain ⟨p, hp⟩ := List.exists_mem_of_ne_nil members (hd.class_ne_nil hMembers)
    exact ⟨p, hd.mem_states_of_mem_class hMembers hp, (standIn_eq hMembers hp).trans hEq⟩
  · intro hState
    obtain ⟨p, hp, hEq⟩ := hState
    obtain ⟨members, hMembers, hIn⟩ := hd.exists_mem_classes hp
    exact ⟨members, hMembers, (standIn_eq hMembers hIn).symm.trans hEq⟩

/-- Representatives are the states that stand for themselves. -/
theorem mem_quotient_states_iff : q ∈ d.quotient.states ↔ q ∈ d.states ∧ d.standIn q = q := by
  rw [hd.mem_quotient_states]
  constructor
  · intro hState
    obtain ⟨p, hp, rfl⟩ := hState
    exact ⟨hd.standIn_mem hp, hd.standIn_standIn hp⟩
  · intro hState
    exact ⟨q, hState⟩

/-- A step between representatives follows a step between the states that they stand for. -/
theorem quotient_next {a : Char} (hq : q ∈ d.states) (ha : a ∈ d.alphabet) :
    d.quotient.next (d.standIn q) a = d.standIn (d.next q a) := by
  have hStandIn := hd.standIn_mem hq
  have hNext := (hd.indistinguishable_standIn hq).next ha
  rw [next, quotient_next?, if_pos (hd.standIn_standIn hq), hd.next?_eq hStandIn ha,
    Option.map_some, Option.getD_some]
  exact (hd.standIn_eq_iff (hd.next_mem hStandIn ha) (hd.next_mem hq ha)).mpr hNext.symm

/-- After every word, the automaton is in the state that stands for the state of the original. -/
theorem quotient_after {word : Word} (hq : q ∈ d.states) (hWord : ∀ a ∈ word, a ∈ d.alphabet) :
    d.quotient.after (d.standIn q) word = d.standIn (d.after q word) := by
  induction word generalizing q with
  | nil => rfl
  | cons a word ih =>
      rw [List.forall_mem_cons] at hWord
      rw [after_cons, after_cons, hd.quotient_next hq hWord.1]
      exact ih (hd.next_mem hq hWord.1) hWord.2

/-- A state and the one that stands for it both accept, or none does. -/
theorem standIn_mem_quotient_accept (hq : q ∈ d.states) :
    d.standIn q ∈ d.quotient.accept ↔ q ∈ d.accept := by
  rw [mem_quotient_accept, and_iff_left (hd.standIn_standIn hq)]
  exact (hd.indistinguishable_standIn hq).mem_accept_iff.symm

/-- The automaton on representatives merges every state into the one that stands for it. -/
theorem quotient_eq_mergeBy : d.quotient = d.mergeBy d.standIn := by
  refine eq_of_parts rfl ?_ rfl ?_ ?_
  · intro q
    rw [hd.mem_quotient_states_iff, mem_mergeBy_states]
  · intro q
    rw [mem_quotient_accept, mem_mergeBy_accept]
  · intro q a
    rw [quotient_next?, mergeBy_next?]

/-- No entry that is left leads to a state that was dropped. -/
theorem wellFormed_quotient : d.quotient.WellFormed := by
  rw [hd.quotient_eq_mergeBy]
  exact hd.wellFormed_mergeBy hd.standIn_start fun q hq =>
    ⟨hd.standIn_mem hq, hd.standIn_standIn hq⟩

/-- Which of several equivalent states a run is in does not matter for its answer. -/
theorem run_quotient_eq (word : Word) : d.quotient.run word = d.run word := by
  rw [run_eq_answer, run_eq_answer]
  apply Alphabet.answer_congr
  intro hWord
  have hAfter := hd.quotient_after hd.start_mem hWord
  rw [hd.standIn_start] at hAfter
  rw [Bool.eq_iff_iff, decide_eq_true_eq, decide_eq_true_eq]
  change d.quotient.after d.start word ∈ _ ↔ _
  rw [hAfter]
  exact hd.standIn_mem_quotient_accept (hd.after_mem hd.start_mem hWord)

/-- A word that leads to a state leads to the one that stands for it. -/
theorem accessible_quotient (hReach : d.Accessible) : d.quotient.Accessible := by
  intro q hq
  obtain ⟨p, hp, rfl⟩ := hd.mem_quotient_states.mp hq
  obtain ⟨word, hWord, rfl⟩ := hReach p hp
  have hAfter := hd.quotient_after hd.start_mem hWord
  rw [hd.standIn_start] at hAfter
  exact ⟨word, hWord, hAfter⟩

/-- As every class has one representative, some word tells any two of them apart. -/
theorem reduced_quotient : d.quotient.Reduced := by
  intro q hq r hr hSame
  obtain ⟨p, hp, rfl⟩ := hd.mem_quotient_states.mp hq
  obtain ⟨s, hs, rfl⟩ := hd.mem_quotient_states.mp hr
  apply (hd.standIn_eq_iff hp hs).mpr
  intro word hWord
  have hAccept := hSame word hWord
  rw [hd.quotient_after hp hWord, hd.quotient_after hs hWord] at hAccept
  rwa [hd.standIn_mem_quotient_accept (hd.after_mem hp hWord),
    hd.standIn_mem_quotient_accept (hd.after_mem hs hWord)] at hAccept

theorem wellFormed_minimize : d.minimize.WellFormed := hd.wellFormed_trim.wellFormed_quotient

theorem accessible_minimize : d.minimize.Accessible :=
  hd.wellFormed_trim.accessible_quotient hd.accessible_trim

theorem reduced_minimize : d.minimize.Reduced := hd.wellFormed_trim.reduced_quotient

/-- Neither unreachable states nor equivalent ones matter for any answer. -/
theorem run_minimize_eq (word : Word) : d.minimize.run word = d.run word :=
  (hd.wellFormed_trim.run_quotient_eq word).trans (hd.run_trim_eq word)

/-- No state is added. -/
theorem size_minimize_le : d.minimize.states.size ≤ d.states.size := by
  apply SortedSet.size_le_of_subset
  intro q hq
  have hTrim := (hd.wellFormed_trim.mem_quotient_states_iff.mp hq).1
  exact hd.mem_states_of_mem_reachable hTrim

end WellFormed

/-- Minimization keeps the start state, and every answer: the verdict on each word over the
alphabet and the report of the first foreign symbol in any other. -/
theorem minimize_same_answers (d : Dfa) (hValid : d.validate = .ok d) :
    d.minimize.WellFormed ∧ d.minimize.start = d.start ∧
      ∀ word, d.minimize.run word = d.run word := by
  have hd := (validate_eq_ok_iff.mp hValid).1
  exact ⟨hd.wellFormed_minimize, rfl, hd.run_minimize_eq⟩

/-- Accepts the words of odd length. One state is unreachable, and two cannot be told apart. -/
def unfoldedParity : Dfa where
  alphabet := Alphabet.ofString "a"
  states := SortedSet.ofList ["0", "1", "2", "lost"]
  start := "0"
  accept := SortedSet.ofList ["1"]
  table := SortedMap.ofList [(("0", 'a'), "1"), (("1", 'a'), "2"), (("2", 'a'), "1"),
    (("lost", 'a'), "0")]

theorem validate_unfoldedParity : unfoldedParity.validate = .ok unfoldedParity :=
  validate_eq_ok_iff.mpr ⟨faults_eq_nil_iff.mp (by decide), rfl⟩

/-- One state is dropped, two are merged, and of two foreign symbols the first is reported. -/
theorem minimize_same_answers_parity :
    unfoldedParity.validate = .ok unfoldedParity ∧
      unfoldedParity.minimize.states = SortedSet.ofList ["0", "1"] ∧
      unfoldedParity.minimize.run ['a', 'a', 'a'] = .ok true ∧
      unfoldedParity.minimize.run ['a', 'b', 'c'] = .error (.symbolNotInAlphabet 'b') := by
  obtain ⟨_, _, hRun⟩ := minimize_same_answers unfoldedParity validate_unfoldedParity
  rw [hRun, hRun]
  exact ⟨validate_unfoldedParity, by decide, rfl, rfl⟩

end Acceptors.Dfa
