import Acceptors.Nfa.Determinization
import Acceptors.Nfa.Draft
import Acceptors.Proofs.Dfa.Run
import Acceptors.Proofs.Discovery
import Acceptors.Proofs.Name
import Acceptors.Proofs.Nfa.Path
import Acceptors.Proofs.Validation

/-! The deterministic automaton of the reachable sets simulates the nondeterministic one: after
every word it is in the state that is named for the set of states the other may be in. Names
never identify two sets, whatever the names of the states look like. -/
namespace Acceptors.Nfa

variable {n : Nfa}

/-- The successors of a set are its steps on the symbols of the alphabet, the empty set included.
-/
theorem mem_successors {s t : SortedSet String} :
    t ∈ n.successors s ↔ ∃ a ∈ n.alphabet, n.step s a = t := by
  rw [successors, List.mem_map]
  rfl

/-- Whatever a set consists of, it is followed by sets of declared states. -/
theorem Declared.mem_states_of_mem_successors (hn : n.Declared) {s t : SortedSet String}
    (ht : t ∈ n.successors s) : ∀ q ∈ t, q ∈ n.states := by
  intro q hq
  obtain ⟨a, _, rfl⟩ := mem_successors.mp ht
  obtain ⟨p, _, hTarget⟩ := mem_step.mp hq
  exact hn.target_mem_states hTarget

/-- The discovery of the reachable sets ends before its bound is used up. -/
theorem Declared.subsets_finishes (hn : n.Declared) :
    Discovery.Finishes n.successors [] [n.start] n.subsets := by
  apply Discovery.discover_finishes (fun _ _ _ => hn.mem_states_of_mem_successors) _ hn.start_mem
    (Nat.le_refl _)
  intro l hNodup hInside
  exact SortedSet.length_le_two_pow_size hNodup hInside

def subsetName (n : Nfa) (subset : SortedSet String) : String :=
  ((n.subsets.zip n.subsetNames).lookup subset).getD (subsetText subset)

theorem lookup_subsetName {s : SortedSet String} (hs : s ∈ n.subsets) :
    (n.subsets.zip n.subsetNames).lookup s = some (n.subsetName s) := by
  have hLength : n.subsets.length ≤ n.subsetNames.length := by
    rw [subsetNames, Name.length_freshAll, List.length_map]
  obtain ⟨name, _, hName⟩ := Name.exists_lookup_zip hLength hs
  rw [subsetName, hName]
  rfl

/-- Different sets have different names. -/
theorem subsetName_inj {s t : SortedSet String} (hs : s ∈ n.subsets) (ht : t ∈ n.subsets)
    (hName : n.subsetName s = n.subsetName t) : s = t := by
  have hLookup := lookup_subsetName hs
  rw [hName] at hLookup
  exact Name.eq_of_lookup_zip (Name.nodup_freshAll _ _) hLookup (lookup_subsetName ht)

/-- The states are the names of the discovered sets, and no others. -/
theorem mem_determinize_states {name : String} :
    name ∈ n.determinize.states ↔ ∃ s ∈ n.subsets, n.subsetName s = name := by
  change name ∈ SortedSet.ofList (n.subsets.map n.subsetName) ↔ _
  rw [SortedSet.mem_ofList, List.mem_map]

theorem mem_determinize_accept {name : String} :
    name ∈ n.determinize.accept ↔
      ∃ s ∈ n.subsets, s.meets n.accept = true ∧ n.subsetName s = name := by
  change name ∈ SortedSet.ofList ((n.subsets.filter fun s => s.meets n.accept).map n.subsetName) ↔ _
  simp only [SortedSet.mem_ofList, List.mem_map, List.mem_filter, and_assoc]

/-- The table has one row for each discovered set, and no other entries. -/
theorem determinize_next?_eq_some_iff {name target : String} {a : Char} :
    n.determinize.next? name a = some target ↔
      a ∈ n.alphabet ∧ ∃ s ∈ n.subsets, n.subsetName s = name ∧
        n.subsetName (n.step s a) = target := by
  change (SortedMap.ofList (n.subsets.flatMap fun s =>
    n.alphabet.toList.map fun a => ((n.subsetName s, a), n.subsetName (n.step s a)))).get?
      (name, a) = some target ↔ _
  have hEntry : ∀ k v, (k, v) ∈ (n.subsets.flatMap fun s =>
      n.alphabet.toList.map fun a => ((n.subsetName s, a), n.subsetName (n.step s a))) ↔
      k.2 ∈ n.alphabet ∧ ∃ s ∈ n.subsets, n.subsetName s = k.1 ∧
        n.subsetName (n.step s k.2) = v := by
    intro k v
    simp only [List.mem_flatMap, List.mem_map, Prod.ext_iff, SortedSet.mem_toList]
    constructor
    · rintro ⟨s, hs, b, hb, ⟨hName, rfl⟩, hTarget⟩
      exact ⟨hb, s, hs, hName, hTarget⟩
    · rintro ⟨hb, s, hs, hName, hTarget⟩
      exact ⟨s, hs, k.2, hb, ⟨hName, rfl⟩, hTarget⟩
  rw [SortedMap.get?_ofList_eq_some_iff, hEntry]
  intro k v w hv hw
  obtain ⟨_, s, hs, hName, rfl⟩ := (hEntry k v).mp hv
  obtain ⟨_, t, ht, hOther, rfl⟩ := (hEntry k w).mp hw
  rw [subsetName_inj hs ht (hName.trans hOther.symm)]

/-- One step of the simulation. -/
theorem determinize_next {s : SortedSet String} {a : Char} (hs : s ∈ n.subsets)
    (ha : a ∈ n.alphabet) :
    n.determinize.next (n.subsetName s) a = n.subsetName (n.step s a) := by
  have hEntry := determinize_next?_eq_some_iff.mpr ⟨ha, s, hs, rfl, rfl⟩
  rw [Dfa.next, hEntry]
  rfl

/-- As no name is given twice, the name of a set accepts exactly if a member of the set does. -/
theorem subsetName_mem_accept {s : SortedSet String} (hs : s ∈ n.subsets) :
    n.subsetName s ∈ n.determinize.accept ↔ s.meets n.accept = true := by
  rw [mem_determinize_accept]
  constructor
  · intro hAccept
    obtain ⟨t, ht, hMeets, hName⟩ := hAccept
    rwa [subsetName_inj ht hs hName] at hMeets
  · intro hMeets
    exact ⟨s, hs, hMeets, rfl⟩

theorem determinize_start : n.determinize.start = n.subsetName n.start := rfl

namespace Declared

variable (hn : n.Declared)
include hn

/-- No set is discovered twice. -/
theorem nodup_subsets : n.subsets.Nodup :=
  hn.subsets_finishes.nodup (List.nodup_singleton n.start)

theorem start_mem_subsets : n.start ∈ n.subsets :=
  hn.subsets_finishes.isPrefix.subset List.mem_cons_self

/-- Discovery is complete: it has found all steps of what it has found. -/
theorem step_mem_subsets {s : SortedSet String} {a : Char} (hs : s ∈ n.subsets)
    (ha : a ∈ n.alphabet) : n.step s a ∈ n.subsets := by
  apply hn.subsets_finishes.closed (by simp) s hs
  exact mem_successors.mpr ⟨a, ha, rfl⟩

theorem mem_states_of_mem_subsets {s : SortedSet String} (hs : s ∈ n.subsets) {q : String}
    (hq : q ∈ s) : q ∈ n.states := by
  have hInit : ∀ t ∈ [] ++ [n.start], ∀ q ∈ t, q ∈ n.states := by
    simpa using hn.start_mem
  have hInside := hn.subsets_finishes.invariant
    (fun _ _ _ => hn.mem_states_of_mem_successors) hInit
  exact hInside s hs q hq

/-- The deterministic automaton keeps track of the set of states of the other one. -/
theorem determinize_after {s : SortedSet String} {word : Word} (hs : s ∈ n.subsets)
    (hWord : ∀ a ∈ word, a ∈ n.alphabet) :
    n.after s word ∈ n.subsets ∧
      n.determinize.after (n.subsetName s) word = n.subsetName (n.after s word) := by
  induction word generalizing s with
  | nil => exact ⟨hs, rfl⟩
  | cons a word ih =>
      rw [List.forall_mem_cons] at hWord
      rw [Dfa.after_cons, determinize_next hs hWord.1, after_cons]
      exact ih (hn.step_mem_subsets hs hWord.1) hWord.2

/-- The deterministic automaton has the same answers on all words, foreign symbols included. -/
theorem run_determinize_eq (word : Word) : n.determinize.run word = n.run word := by
  rw [Dfa.run_eq_answer, run, runFrom_eq_answer]
  apply Alphabet.answer_congr
  intro hWord
  obtain ⟨hMem, hAfter⟩ := hn.determinize_after hn.start_mem_subsets hWord
  rw [Bool.eq_iff_iff, decide_eq_true_eq, determinize_start, hAfter]
  exact subsetName_mem_accept hMem

/-- Every discovered set has a row with an entry for each symbol, and its targets were discovered
too. -/
theorem wellFormed_determinize : n.determinize.WellFormed where
  start_mem := mem_determinize_states.mpr ⟨n.start, hn.start_mem_subsets, rfl⟩
  accept_mem name hAccept := by
    obtain ⟨s, hs, _, hName⟩ := mem_determinize_accept.mp hAccept
    exact mem_determinize_states.mpr ⟨s, hs, hName⟩
  mem_table name a := by
    rw [SortedMap.mem_iff, Option.isSome_iff_exists, mem_determinize_states]
    constructor
    · intro hEntry
      obtain ⟨target, hTarget⟩ := hEntry
      obtain ⟨ha, s, hs, hName, _⟩ := determinize_next?_eq_some_iff.mp hTarget
      exact ⟨⟨s, hs, hName⟩, ha⟩
    · intro hKey
      obtain ⟨⟨s, hs, hName⟩, ha⟩ := hKey
      exact ⟨_, determinize_next?_eq_some_iff.mpr ⟨ha, s, hs, hName, rfl⟩⟩
  target_mem name a target hTarget := by
    obtain ⟨ha, s, hs, _, hName⟩ := determinize_next?_eq_some_iff.mp hTarget
    exact mem_determinize_states.mpr ⟨_, hn.step_mem_subsets hs ha, hName⟩

end Declared

/-- Determinization ends and gives a well-formed automaton with the same answers, verdicts and
reports of foreign symbols alike. -/
theorem determinize_same_answers (n : Nfa) (hn : n.Declared) :
    Discovery.Finishes n.successors [] [n.start] n.subsets ∧ n.determinize.WellFormed ∧
      ∀ word, n.determinize.run word = n.run word :=
  ⟨hn.subsets_finishes, hn.wellFormed_determinize, hn.run_determinize_eq⟩

/-- The set of `x` and `y` and the set of `x,y` are written alike. -/
def commaNames : Nfa where
  alphabet := Alphabet.ofString "ab"
  states := SortedSet.ofList ["s", "x", "y", "x,y"]
  start := SortedSet.ofList ["s"]
  accept := SortedSet.ofList ["x,y"]
  table := SortedMap.ofList [(("s", 'a'), SortedSet.ofList ["x", "y"]),
    (("s", 'b'), SortedSet.ofList ["x,y"]), (("x", 'a'), SortedSet.ofList ["s"])]

/-- The two sets that are written alike get two states, one of which accepts. -/
theorem determinize_same_answers_commas :
    commaNames.Declared ∧
      Discovery.Finishes commaNames.successors [] [commaNames.start] commaNames.subsets ∧
      commaNames.determinize.run ['a'] = .ok false ∧
      commaNames.determinize.run ['b'] = .ok true ∧
      commaNames.determinize.run ['b', 'b', 'c'] = .error (.symbolNotInAlphabet 'c') := by
  have hDeclared : commaNames.Declared := (faults_eq_nil_iff.mp (by decide)).toDeclared
  obtain ⟨hFinishes, _, hRun⟩ := determinize_same_answers commaNames hDeclared
  rw [hRun, hRun, hRun]
  exact ⟨hDeclared, hFinishes, rfl, rfl, rfl⟩

end Acceptors.Nfa
