import Acceptors.Proofs.Nfa.Renaming
import Acceptors.Proofs.Validation

/-! Automata that differ in the names of their states only. A disjoint copy is one of these: the new
names are different from each other and from all that are in use, so no two entries of the table
become one. -/
namespace Acceptors.Nfa

variable {n other : Nfa} {f : String → String}

/-- A renaming of the states of one automaton to those of another that maps start states onto start
states, accept states onto accept states, and all transitions onto transitions, at both ends. -/
structure IsIsomorphism (n m : Nfa) (f : String → String) : Prop where
  alphabet_eq : n.alphabet = m.alphabet
  states_bijOn : Set.BijOn f {q | q ∈ n.states} {q | q ∈ m.states}
  map_start : n.start.map f = m.start
  map_accept : n.accept.map f = m.accept
  mem_targets_iff : ∀ r a s, s ∈ m.targets r a ↔ ∃ p q, q ∈ n.targets p a ∧ f p = r ∧ f q = s
  /-- Entries are kept apart, and entries without targets are kept too. -/
  get?_eq_some_iff : ∀ r a targets, m.table.get? (r, a) = some targets ↔
    ∃ q old, n.table.get? (q, a) = some old ∧ f q = r ∧ old.map f = targets

/-- A renaming that keeps the states apart changes nothing but their names. -/
theorem isIsomorphism_rename (hn : n.Declared) (hInj : Set.InjOn f {q | q ∈ n.states}) :
    IsIsomorphism n (n.rename f) f where
  alphabet_eq := rfl
  states_bijOn := by
    refine ⟨fun q hq => SortedSet.mem_map.mpr ⟨q, hq, rfl⟩, hInj, fun r hr => ?_⟩
    exact SortedSet.mem_map.mp hr
  map_start := rfl
  map_accept := rfl
  mem_targets_iff r a s := by
    constructor
    · intro hs
      obtain ⟨targets, hGet, _⟩ := mem_targets.mp hs
      obtain ⟨p, old, hOld, rfl, _⟩ := (rename_get?_eq_some_iff hn hInj).mp hGet
      have hp := hn.source_mem p a (SortedMap.mem_of_get?_eq_some hOld)
      obtain ⟨q, hq, rfl⟩ := (mem_rename_targets hn hInj hp).mp hs
      exact ⟨p, q, hq, rfl, rfl⟩
    · rintro ⟨p, q, hq, rfl, rfl⟩
      exact (mem_rename_targets hn hInj (hn.source_mem_states hq)).mpr ⟨q, hq, rfl⟩
  get?_eq_some_iff _ _ _ := rename_get?_eq_some_iff hn hInj

/-- Beside any automaton, a disjoint copy of another has only new states. It is the other automaton
with the states renamed that both use, one to one, and with nothing else changed. -/
theorem disjointCopy_isomorphic (n : Nfa) (hOther : other.Declared) :
    (∀ q ∈ (n.disjointCopy other).states, q ∉ n.states) ∧
      (∃ f, IsIsomorphism other (n.disjointCopy other) f ∧ ∀ q, q ∉ n.states → f q = q) ∧
      (n.disjointCopy other).states.size = other.states.size ∧
      ∀ word : Word, (n.disjointCopy other).run word = other.run word := by
  have iso : IsIsomorphism other (n.disjointCopy other) _ :=
    isIsomorphism_rename hOther nameIn_injOn
  refine ⟨fun q => disjointCopy_disjoint, ⟨_, iso, fun q => nameIn_of_not_mem⟩,
    SortedSet.size_map_of_injOn nameIn_injOn, fun word => ?_⟩
  rw [run_eq_answer, run_eq_answer, language_disjointCopy hOther]
  rfl

/-- The numbers behind `s` are taken up to two, the number of `q` has no successor. -/
def numbered : Nfa where
  alphabet := Alphabet.ofString "a"
  states := SortedSet.ofList ["q18446744073709551615", "s007", "s1", "s2"]
  start := ∅
  accept := ∅
  table := ∅

/-- Reads `a` and `b` in turns. All states but `s3` are also states of `numbered`. -/
def alternatingNumbered : Nfa where
  alphabet := Alphabet.ofString "ab"
  states := SortedSet.ofList ["q18446744073709551615", "s007", "s1", "s3"]
  start := SortedSet.ofList ["s1", "s3"]
  accept := SortedSet.ofList ["q18446744073709551615"]
  table := SortedMap.ofList [(("s1", 'a'), SortedSet.ofList ["q18446744073709551615", "s007"]),
    (("q18446744073709551615", 'b'), SortedSet.ofList ["s1", "s3"]), (("s3", 'a'), ∅)]

/-- Only `s3` keeps its name. A number without a successor counts as a part of the name. -/
theorem disjointCopy_isomorphic_numbered :
    alternatingNumbered.Declared ∧
      (numbered.disjointCopy alternatingNumbered).states =
        SortedSet.ofList ["q184467440737095516151", "s3", "s4", "s8"] ∧
      (∃ f, IsIsomorphism alternatingNumbered (numbered.disjointCopy alternatingNumbered) f ∧
        f "s3" = "s3") ∧
      (numbered.disjointCopy alternatingNumbered).run ['a', 'b', 'a'] = .ok true := by
  have hDeclared : alternatingNumbered.Declared := (faults_eq_nil_iff.mp (by decide)).toDeclared
  obtain ⟨_, ⟨f, iso, hKept⟩, _, hRun⟩ := disjointCopy_isomorphic numbered hDeclared
  refine ⟨hDeclared, by decide, ⟨f, iso, hKept "s3" (by decide)⟩, ?_⟩
  rw [hRun]
  decide

end Acceptors.Nfa
