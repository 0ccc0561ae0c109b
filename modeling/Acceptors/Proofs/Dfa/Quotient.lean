import Acceptors.Proofs.Dfa.Collapse

/-! What minimization keeps of an automaton: one state of every class of reachable states that no
word tells apart, with the transitions between classes. Where only such states are left, there is
nothing to drop and nothing to merge, so that minimizing again changes nothing. -/
namespace Acceptors.Dfa

open KeyOrder

variable {d : Dfa} {p q r : String}

/-- The state that stands for the reachable states that no word tells apart from `q`: the start
state if it is one of them, and otherwise the one that no other comes before in the order of
names. -/
structure Represents (d : Dfa) (r q : String) : Prop where
  reached : d.Reached r
  same : d.Indistinguishable q r
  eq_start : d.Indistinguishable q d.start → r = d.start
  least : ¬ d.Indistinguishable q d.start →
    ∀ p, d.Reached p → d.Indistinguishable q p → before p r = false

namespace Represents

/-- A class has one representative only. -/
theorem unique {s : String} (hFirst : d.Represents r q) (hSecond : d.Represents s q) : r = s := by
  by_cases hStart : d.Indistinguishable q d.start
  · rw [hFirst.eq_start hStart, hSecond.eq_start hStart]
  · exact eq_of_unordered (hSecond.least hStart r hFirst.reached hFirst.same)
      (hFirst.least hStart s hSecond.reached hSecond.same)

/-- All states of a class have the same representative. -/
theorem congr (hSame : d.Indistinguishable p q) (hState : d.Represents r q) :
    d.Represents r p where
  reached := hState.reached
  same := hSame.trans hState.same
  eq_start hStart := hState.eq_start (hSame.symm.trans hStart)
  least hStart s hReached hOther :=
    hState.least (fun hBoth => hStart (hSame.trans hBoth)) s hReached (hSame.symm.trans hOther)

end Represents

/-- The states of a group are listed by name. -/
theorem before_headD_of_mem_classes {members : List String} (hMembers : members ∈ d.classes)
    (hq : q ∈ members) (other : String) : before q (members.headD other) = false := by
  obtain ⟨number, _, rfl⟩ := mem_classes_iff.mp hMembers
  have hAscending := d.states.ascending.filter fun q => decide
    ((d.settle d.states.size d.acceptanceLabels).classOf q = number)
  cases hList : d.states.toList.filter fun q => decide
      ((d.settle d.states.size d.acceptanceLabels).classOf q = number) with
  | nil =>
      rw [hList] at hq
      cases hq
  | cons first rest =>
      rw [hList, List.pairwise_cons] at hAscending
      rw [hList] at hq
      rcases List.mem_cons.mp hq with rfl | hq
      · exact before_irrefl q
      · have hBefore := hAscending.1 q hq
        by_contra hBack
        rw [Bool.not_eq_false] at hBack
        exact ne_of_before (before_trans hBefore hBack) rfl

/-- An automaton on the representatives: each is the only one of its class, and its transitions
lead where those of the original lead, up to the choice of the representative. -/
structure IsQuotient (d e : Dfa) : Prop where
  alphabet_eq : e.alphabet = d.alphabet
  start_eq : e.start = d.start
  existsUnique_state : ∀ q, d.Reached q → ∃! r, r ∈ e.states ∧ d.Indistinguishable q r
  mem_states_iff : ∀ r, r ∈ e.states ↔ ∃ q, d.Reached q ∧ d.Represents r q
  mem_accept_iff : ∀ r, r ∈ e.accept ↔ ∃ q ∈ d.accept, d.Reached q ∧ d.Represents r q
  exists_next? : ∀ r ∈ e.states, ∀ a ∈ d.alphabet,
    ∃ target s, d.next? r a = some target ∧ e.next? r a = some s ∧ d.Represents s target
  mem_table_iff : ∀ r a, (r, a) ∈ e.table ↔ r ∈ e.states ∧ a ∈ d.alphabet

namespace WellFormed

variable (hd : d.WellFormed)
include hd

/-- Words lead to the same verdicts after trimming, since they never leave the reachable states. -/
theorem trim_indistinguishable_iff (hq : q ∈ d.reachable) (hr : r ∈ d.reachable) :
    d.trim.Indistinguishable q r ↔ d.Indistinguishable q r := by
  refine forall_congr' fun word => imp_congr_right fun hWord => ?_
  rw [hd.trim_after hq hWord, hd.trim_after hr hWord,
    mem_trim_accept_iff (hd.after_mem_reachable hq hWord),
    mem_trim_accept_iff (hd.after_mem_reachable hr hWord)]

/-- The state that is kept of a class is its representative. -/
theorem represents_standIn (hq : q ∈ d.reachable) : d.Represents (d.trim.standIn q) q := by
  have hTrim := hd.wellFormed_trim
  have hStandIn : d.trim.standIn q ∈ d.reachable := hTrim.standIn_mem hq
  refine ⟨hd.mem_reachable_iff.mp hStandIn, ?_, ?_, ?_⟩
  · exact (hd.trim_indistinguishable_iff hq hStandIn).mp (hTrim.indistinguishable_standIn hq)
  · intro hStart
    have hSame := (hd.trim_indistinguishable_iff hq hd.start_mem_reachable).mpr hStart
    exact ((hTrim.standIn_eq_iff hq hTrim.start_mem).mpr hSame).trans hTrim.standIn_start
  · intro hStart p hp hSame
    obtain ⟨members, hMembers, hIn⟩ := hTrim.exists_mem_classes hq
    -- The group is the whole class, so without the start state its head is the least of the class.
    have hClass : ∀ r, r ∈ d.reachable → (r ∈ members ↔ d.Indistinguishable q r) := by
      intro r hr
      rw [hTrim.mem_class_iff hMembers hIn, ← hd.trim_indistinguishable_iff hq hr]
      exact and_iff_right hr
    have hNoStart : d.trim.start ∉ members :=
      fun hBoth => hStart ((hClass d.start hd.start_mem_reachable).mp hBoth)
    rw [standIn_eq hMembers hIn, representative, if_neg hNoStart]
    exact before_headD_of_mem_classes hMembers
      ((hClass p (hd.mem_reachable_iff.mpr hp)).mpr hSame) d.trim.start

theorem represents_iff (hq : q ∈ d.reachable) : d.Represents r q ↔ d.trim.standIn q = r := by
  constructor
  · exact (hd.represents_standIn hq).unique
  · rintro rfl
    exact hd.represents_standIn hq

/-- The states of the minimal automaton are the representatives of what words lead to. -/
theorem mem_minimize_states_iff :
    r ∈ d.minimize.states ↔ ∃ q, d.Reached q ∧ d.Represents r q := by
  rw [minimize, hd.wellFormed_trim.mem_quotient_states]
  refine exists_congr fun q => ?_
  change q ∈ d.reachable ∧ _ ↔ _
  rw [hd.mem_reachable_iff]
  refine and_congr_right fun hq => ?_
  exact (hd.represents_iff (hd.mem_reachable_iff.mpr hq)).symm

/-- A representative stands for itself. -/
theorem represents_self (hr : r ∈ d.minimize.states) : d.Represents r r := by
  obtain ⟨q, hq, hState⟩ := hd.mem_minimize_states_iff.mp hr
  exact hState.congr hState.same.symm

/-- Of the states that no word tells from a reachable one, exactly one is kept. -/
theorem existsUnique_mem_minimize_states (hq : d.Reached q) :
    ∃! r, r ∈ d.minimize.states ∧ d.Indistinguishable q r := by
  have hState := hd.represents_standIn (hd.mem_reachable_iff.mpr hq)
  refine ⟨d.trim.standIn q, ⟨hd.mem_minimize_states_iff.mpr ⟨q, hq, hState⟩, hState.same⟩, ?_⟩
  intro s hs
  exact ((hd.represents_self hs.1).congr hs.2).unique hState

theorem mem_minimize_accept_iff :
    r ∈ d.minimize.accept ↔ ∃ q ∈ d.accept, d.Reached q ∧ d.Represents r q := by
  constructor
  · intro hr
    have hState := hd.represents_self (hd.wellFormed_minimize.accept_mem r hr)
    have hAccept := (mem_trim_accept_iff (hd.mem_reachable_iff.mpr hState.reached)).mp
      (mem_quotient_accept.mp hr).1
    exact ⟨r, hAccept, hState.reached, hState⟩
  · rintro ⟨q, hAccept, hq, hState⟩
    have hReach := hd.mem_reachable_iff.mpr hq
    rw [minimize, ← (hd.represents_iff hReach).mp hState,
      hd.wellFormed_trim.standIn_mem_quotient_accept hReach, mem_trim_accept_iff hReach]
    exact hAccept

/-- A transition that is kept leads to the representative of its original target. -/
theorem exists_minimize_next? {a : Char} (hr : r ∈ d.minimize.states) (ha : a ∈ d.alphabet) :
    ∃ target s, d.next? r a = some target ∧ d.minimize.next? r a = some s ∧
      d.Represents s target := by
  have hKept := hd.wellFormed_trim.mem_quotient_states_iff.mp hr
  have hReach : r ∈ d.reachable := hKept.1
  refine ⟨d.next r a, d.trim.standIn (d.next r a),
    hd.next?_eq (hd.mem_states_of_mem_reachable hReach) ha, ?_,
    hd.represents_standIn (hd.next_mem_reachable hReach ha)⟩
  rw [minimize, quotient_next?, if_pos hKept.2, trim_next?, if_pos hReach,
    hd.next?_eq (hd.mem_states_of_mem_reachable hReach) ha, Option.map_some]

theorem isQuotient_minimize : d.IsQuotient d.minimize where
  alphabet_eq := rfl
  start_eq := rfl
  existsUnique_state _ hq := hd.existsUnique_mem_minimize_states hq
  mem_states_iff _ := hd.mem_minimize_states_iff
  mem_accept_iff _ := hd.mem_minimize_accept_iff
  exists_next? _ hr _ ha := hd.exists_minimize_next? hr ha
  mem_table_iff := hd.wellFormed_minimize.mem_table

/-! Where nothing is left to drop or to merge. -/

/-- Where words lead to all states, none is dropped. -/
theorem trim_eq_self (hReach : d.Accessible) : d.trim = d := by
  have hStates : ∀ q, q ∈ d.reachable ↔ q ∈ d.states := by
    intro q
    refine ⟨hd.mem_states_of_mem_reachable, fun hq => ?_⟩
    exact hd.mem_reachable_iff.mpr (hReach q hq)
  refine eq_of_parts rfl hStates rfl ?_ ?_
  · intro q
    rw [mem_trim_accept, hStates]
    exact and_iff_left_of_imp (hd.accept_mem q)
  · intro q a
    rw [trim_next?]
    by_cases hq : q ∈ d.reachable
    · rw [if_pos hq]
    · rw [if_neg hq, hd.next?_eq_none fun hKey => hq ((hStates q).mpr hKey.1)]

theorem standIn_of_not_mem (hq : q ∉ d.states) : d.standIn q = q :=
  representativeOf_of_forall_not_mem fun _ hMembers hIn =>
    hq (hd.mem_states_of_mem_class hMembers hIn)

/-- Where words tell all states apart, none are merged. -/
theorem quotient_eq_self (hReduced : d.Reduced) : d.quotient = d := by
  rw [hd.quotient_eq_mergeBy]
  apply mergeBy_eq_self
  intro q
  -- A merge is given by a map on all names, also those that are no states.
  by_cases hq : q ∈ d.states
  · exact (hReduced q hq _ (hd.standIn_mem hq) (hd.indistinguishable_standIn hq)).symm
  · exact hd.standIn_of_not_mem hq

/-- Not even the names change when a minimal automaton is minimized. -/
theorem minimize_minimize : d.minimize.minimize = d.minimize := by
  have hMinimal := hd.wellFormed_minimize
  rw [minimize, hMinimal.trim_eq_self hd.accessible_minimize]
  exact hMinimal.quotient_eq_self hd.reduced_minimize

end WellFormed

/-- Minimization, which merges class after class, gives the automaton on the representatives of
the reachable states, and changes nothing when it is repeated. -/
theorem minimize_is_quotient (d : Dfa) (hValid : d.validate = .ok d) :
    d.minimize = d.trim.collapseAll d.trim.classes ∧ d.IsQuotient d.minimize ∧
      d.minimize.minimize = d.minimize := by
  have hd := (validate_eq_ok_iff.mp hValid).1
  exact ⟨hd.minimize_eq_collapseAll, hd.isQuotient_minimize, hd.minimize_minimize⟩

/-- Counts down by one and starts over after zero. What is accepted depends on parity alone, and
the start state is not the first odd number. -/
def countdown : Dfa where
  alphabet := Alphabet.ofString "a"
  states := SortedSet.ofList ["0", "1", "2", "3"]
  start := "3"
  accept := SortedSet.ofList ["0", "2"]
  table := SortedMap.ofList [(("3", 'a'), "2"), (("2", 'a'), "1"), (("1", 'a'), "0"),
    (("0", 'a'), "3")]

/-- Of the odd states the start state is kept, and of the even ones the least. -/
theorem minimize_is_quotient_countdown :
    countdown.validate = .ok countdown ∧
      countdown.minimize.states = SortedSet.ofList ["0", "3"] ∧
      countdown.next? "3" 'a' = some "2" ∧ countdown.minimize.next? "3" 'a' = some "0" ∧
      countdown.Represents "0" "2" ∧
      countdown.minimize.minimize = countdown.minimize := by
  have hValid : countdown.validate = .ok countdown :=
    validate_eq_ok_iff.mpr ⟨faults_eq_nil_iff.mp (by decide), rfl⟩
  obtain ⟨_, hQuotient, hAgain⟩ := minimize_is_quotient countdown hValid
  have hTarget : countdown.next? "3" 'a' = some "2" := by decide
  have hKept : countdown.minimize.next? "3" 'a' = some "0" := by decide
  obtain ⟨target, s, hNext, hNextKept, hState⟩ :=
    hQuotient.exists_next? "3" (by decide) 'a' (by decide)
  obtain rfl := Option.some.inj (hTarget.symm.trans hNext)
  obtain rfl := Option.some.inj (hKept.symm.trans hNextKept)
  exact ⟨hValid, by decide, hTarget, hKept, hState, hAgain⟩

end Acceptors.Dfa
