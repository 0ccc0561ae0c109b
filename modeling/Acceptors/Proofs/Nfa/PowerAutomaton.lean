import Acceptors.Proofs.Dfa.Reachability
import Acceptors.Proofs.Nfa.Determinization

/-! Determinization and the sets of states that words lead to. Each of these sets has one state
of the deterministic automaton to itself, the automaton has no other states, and its transitions
and accept states are those of the sets. -/
namespace Acceptors.Nfa

variable {n : Nfa} {s t : SortedSet String}

/-- The sets that the start set leads to, symbol by symbol. A step goes to all the successors of
the members of a set, and there may be none. -/
inductive PowerState (n : Nfa) : SortedSet String → Prop where
  | start : PowerState n n.start
  | step {s : SortedSet String} {a : Char} (prior : PowerState n s) (ha : a ∈ n.alphabet) :
      PowerState n (n.step s a)

/-- A set that steps lead to is the one that a run may be in after some word. -/
theorem PowerState.exists_word (hs : n.PowerState s) :
    ∃ word : Word, (∀ a ∈ word, a ∈ n.alphabet) ∧ n.after n.start word = s := by
  induction hs with
  | start => exact ⟨[], by simp, rfl⟩
  | @step s a _ ha ih =>
      obtain ⟨word, hWord, rfl⟩ := ih
      refine ⟨word ++ [a], ?_, List.foldl_append⟩
      exact List.forall_mem_append.mpr ⟨hWord, List.forall_mem_singleton.mpr ha⟩

/-- A deterministic automaton on the reachable sets, in which every set has a name of its own. -/
structure IsPowerAutomaton (n : Nfa) (d : Dfa) (nameOf : SortedSet String → String) : Prop where
  wellFormed : d.WellFormed
  alphabet_eq : d.alphabet = n.alphabet
  names_bijOn : Set.BijOn nameOf {s | n.PowerState s} {q | q ∈ d.states}
  start_eq : d.start = nameOf n.start
  mem_accept_iff : ∀ s, n.PowerState s → (nameOf s ∈ d.accept ↔ ∃ q ∈ s, q ∈ n.accept)
  next?_eq : ∀ s, n.PowerState s → ∀ a ∈ n.alphabet,
    d.next? (nameOf s) a = some (nameOf (n.step s a))

namespace Declared

variable (hn : n.Declared)
include hn

/-- The discovery finds exactly the reachable sets. -/
theorem mem_subsets_iff : s ∈ n.subsets ↔ n.PowerState s := by
  rw [hn.subsets_finishes.mem_iff_reachable]
  constructor
  · intro hReach
    induction hReach with
    | refl => exact .start
    | tail _ hStep ih =>
        obtain ⟨a, ha, rfl⟩ := mem_successors.mp hStep
        exact ih.step ha
  · intro hs
    induction hs with
    | start => exact .refl
    | step _ ha ih => exact ih.tail (mem_successors.mpr ⟨_, ha, rfl⟩)

/-- Names and reachable sets correspond one to one, however the sets are written. -/
theorem subsetName_bijOn :
    Set.BijOn n.subsetName {s | n.PowerState s} {q | q ∈ n.determinize.states} := by
  refine ⟨?_, ?_, ?_⟩
  · intro s hs
    exact mem_determinize_states.mpr ⟨s, hn.mem_subsets_iff.mpr hs, rfl⟩
  · intro s hs t ht hName
    exact subsetName_inj (hn.mem_subsets_iff.mpr hs) (hn.mem_subsets_iff.mpr ht) hName
  · intro q hq
    obtain ⟨s, hs, hName⟩ := mem_determinize_states.mp hq
    exact ⟨s, hn.mem_subsets_iff.mp hs, hName⟩

theorem isPowerAutomaton_determinize : n.IsPowerAutomaton n.determinize n.subsetName where
  wellFormed := hn.wellFormed_determinize
  alphabet_eq := rfl
  names_bijOn := hn.subsetName_bijOn
  start_eq := determinize_start
  mem_accept_iff s hs := by
    rw [subsetName_mem_accept (hn.mem_subsets_iff.mpr hs), SortedSet.meets_iff]
  next?_eq s hs a ha :=
    determinize_next?_eq_some_iff.mpr ⟨ha, s, hn.mem_subsets_iff.mpr hs, rfl, rfl⟩

/-- No state is superfluous: words lead to all of them. -/
theorem accessible_determinize : n.determinize.Accessible := by
  intro q hq
  obtain ⟨s, hs, rfl⟩ := mem_determinize_states.mp hq
  obtain ⟨word, hWord, rfl⟩ := (hn.mem_subsets_iff.mp hs).exists_word
  exact ⟨word, hWord, (hn.determinize_after hn.start_mem_subsets hWord).2⟩

theorem size_determinize : n.determinize.states.size = n.subsets.length := by
  have hNodup : (n.subsets.map n.subsetName).Nodup :=
    hn.nodup_subsets.map_on fun s hs t ht hName => subsetName_inj hs ht hName
  rw [← List.length_map n.subsetName]
  exact SortedSet.size_eq_length hNodup fun _ => SortedSet.mem_ofList

/-- At worst, every set of states is reachable. -/
theorem size_determinize_le : n.determinize.states.size ≤ 2 ^ n.states.size := by
  rw [hn.size_determinize]
  exact SortedSet.length_le_two_pow_size hn.nodup_subsets fun _ hs _ hq =>
    hn.mem_states_of_mem_subsets hs hq

end Declared

/-- Determinization gives the automaton on the reachable sets of states, and no name is given to
two of them. A word leads to each of its states, of which there are at most as many as there are
sets of states. -/
theorem determinize_is_power_automaton (n : Nfa) (hn : n.Declared) :
    (∃ nameOf, n.IsPowerAutomaton n.determinize nameOf) ∧ n.determinize.Accessible ∧
      n.determinize.states.size ≤ 2 ^ n.states.size :=
  ⟨⟨n.subsetName, hn.isPowerAutomaton_determinize⟩, hn.accessible_determinize,
    hn.size_determinize_le⟩

/-- The name of the only state is empty, so the set of this state and the empty set are written
alike. -/
def blankName : Nfa where
  alphabet := Alphabet.ofString "ab"
  states := SortedSet.ofList [""]
  start := SortedSet.ofList [""]
  accept := SortedSet.ofList [""]
  table := SortedMap.ofList [(("", 'a'), SortedSet.ofList [""])]

/-- Both sets are reachable, which is as many as there can be. -/
theorem determinize_is_power_automaton_blank :
    blankName.Declared ∧ subsetText blankName.start = subsetText ∅ ∧
      (∃ nameOf, blankName.IsPowerAutomaton blankName.determinize nameOf ∧
        nameOf blankName.start ≠ nameOf ∅) ∧
      blankName.determinize.Accessible ∧
      blankName.determinize.states.size = 2 ^ blankName.states.size := by
  have hDeclared : blankName.Declared := (faults_eq_nil_iff.mp (by decide)).toDeclared
  obtain ⟨⟨nameOf, hPower⟩, hAccessible, hSize⟩ :=
    determinize_is_power_automaton blankName hDeclared
  have hEmpty : blankName.PowerState ∅ := PowerState.start.step (a := 'b') (by decide)
  have hDifferent : nameOf blankName.start ≠ nameOf ∅ := by
    intro hName
    exact absurd (hPower.names_bijOn.injOn .start hEmpty hName) (by decide)
  exact ⟨hDeclared, rfl, ⟨nameOf, hPower, hDifferent⟩, hAccessible,
    Nat.le_antisymm hSize (by decide)⟩

end Acceptors.Nfa
