import Acceptors.Proofs.Dfa.Minimization

/-! Automata with the same verdicts whose states are all reachable and all distinguishable are
the same up to the names of their states: each state corresponds to the one that the same
words lead to. Hence a language has one minimal automaton, and it is what minimization gives. -/
namespace Acceptors.Dfa

variable {d e : Dfa} {q r : String}

/-- A renaming of the states of one automaton to those of another that maps start state to
start state and accept states onto accept states, and that commutes with every transition. -/
structure IsIsomorphism (d e : Dfa) (f : String → String) : Prop where
  alphabet_eq : d.alphabet = e.alphabet
  states_bijOn : Set.BijOn f {q | q ∈ d.states} {q | q ∈ e.states}
  map_start : f d.start = e.start
  map_accept : d.accept.map f = e.accept
  map_next? : ∀ q ∈ d.states, ∀ a, (d.next? q a).map f = e.next? (f q) a

theorem IsIsomorphism.size_eq {f : String → String} (iso : IsIsomorphism d e f) :
    d.states.size = e.states.size := by
  have hStates : d.states.map f = e.states := by
    ext q
    rw [SortedSet.mem_map]
    constructor
    · intro hImage
      obtain ⟨p, hp, rfl⟩ := hImage
      exact iso.states_bijOn.mapsTo hp
    · intro hq
      exact iso.states_bijOn.surjOn hq
  rw [← hStates, SortedSet.size_map_of_injOn iso.states_bijOn.injOn]

/-- The same verdict on every word over the alphabet of `d`. -/
def SameVerdicts (d e : Dfa) : Prop :=
  ∀ word : Word, (∀ a ∈ word, a ∈ d.alphabet) →
    (d.after d.start word ∈ d.accept ↔ e.after e.start word ∈ e.accept)

theorem SameVerdicts.symm (hAlphabet : d.alphabet = e.alphabet) (hSame : SameVerdicts d e) :
    SameVerdicts e d := by
  intro word hWord
  rw [← hAlphabet] at hWord
  exact (hSame word hWord).symm

/-- On words over the alphabet an answer is a verdict. -/
theorem sameVerdicts_of_run_eq (hAlphabet : d.alphabet = e.alphabet)
    (hRun : ∀ word : Word, (∀ a ∈ word, a ∈ d.alphabet) → d.run word = e.run word) :
    SameVerdicts d e := by
  intro word hWord
  have hEq := hRun word hWord
  rw [run_eq_answer, run_eq_answer, Alphabet.answer_of_forall_mem hWord,
    Alphabet.answer_of_forall_mem (hAlphabet ▸ hWord), Except.ok.injEq] at hEq
  exact decide_eq_decide.mp hEq

def Corresponds (d e : Dfa) (q r : String) : Prop :=
  ∃ word : Word, (∀ a ∈ word, a ∈ d.alphabet) ∧ d.after d.start word = q ∧
    e.after e.start word = r

namespace Corresponds

theorem start : Corresponds d e d.start e.start := ⟨[], by simp, rfl, rfl⟩

theorem symm (hAlphabet : d.alphabet = e.alphabet) (hPair : Corresponds d e q r) :
    Corresponds e d r q := by
  obtain ⟨word, hWord, hLeft, hRight⟩ := hPair
  exact ⟨word, hAlphabet ▸ hWord, hRight, hLeft⟩

theorem mem_right (hAlphabet : d.alphabet = e.alphabet) (he : e.WellFormed)
    (hPair : Corresponds d e q r) : r ∈ e.states := by
  obtain ⟨word, hWord, _, rfl⟩ := hPair
  exact he.after_mem he.start_mem (hAlphabet ▸ hWord)

/-- States that correspond lead to states that correspond. -/
theorem next (hPair : Corresponds d e q r) {a : Char} (ha : a ∈ d.alphabet) :
    Corresponds d e (d.next q a) (e.next r a) := by
  obtain ⟨word, hWord, rfl, rfl⟩ := hPair
  have hLonger : ∀ b ∈ word ++ [a], b ∈ d.alphabet :=
    List.forall_mem_append.mpr ⟨hWord, List.forall_mem_singleton.mpr ha⟩
  exact ⟨word ++ [a], hLonger, after_append word [a], after_append word [a]⟩

/-- Words lead from corresponding states to the same verdict. -/
theorem verdict_iff (hSame : SameVerdicts d e) (hPair : Corresponds d e q r) {word : Word}
    (hWord : ∀ a ∈ word, a ∈ d.alphabet) :
    d.after q word ∈ d.accept ↔ e.after r word ∈ e.accept := by
  obtain ⟨before, hBefore, rfl, rfl⟩ := hPair
  have hBoth := hSame (before ++ word) (List.forall_mem_append.mpr ⟨hBefore, hWord⟩)
  rwa [after_append, after_append] at hBoth

/-- The word that leads to both states is accepted by both automata or by none. -/
theorem mem_accept_iff (hSame : SameVerdicts d e) (hPair : Corresponds d e q r) :
    q ∈ d.accept ↔ r ∈ e.accept := by
  have hEmpty : ∀ a ∈ ([] : Word), a ∈ d.alphabet := by simp
  exact hPair.verdict_iff hSame hEmpty

/-- A state corresponds to no two states of an automaton whose states are distinguishable. -/
theorem right_unique (hAlphabet : d.alphabet = e.alphabet) (hSame : SameVerdicts d e)
    (he : e.WellFormed) (hReduced : e.Reduced) {s : String} (hFirst : Corresponds d e q r)
    (hSecond : Corresponds d e q s) : r = s := by
  apply hReduced r (hFirst.mem_right hAlphabet he) s (hSecond.mem_right hAlphabet he)
  intro word hWord
  rw [← hAlphabet] at hWord
  exact (hFirst.verdict_iff hSame hWord).symm.trans (hSecond.verdict_iff hSame hWord)

end Corresponds

/-- A state that a word leads to corresponds to the state that it leads to in the other automaton.
-/
theorem Accessible.exists_corresponds (hReach : d.Accessible) (hq : q ∈ d.states) :
    ∃ r, Corresponds d e q r := by
  obtain ⟨word, hWord, hAfter⟩ := hReach q hq
  exact ⟨_, word, hWord, hAfter, rfl⟩

section Uniqueness

variable (hd : d.WellFormed) (he : e.WellFormed) (hAlphabet : d.alphabet = e.alphabet)
  (hSame : SameVerdicts d e)
include hd he hAlphabet hSame

/-- Where states correspond to at most one state on either side, a choice of corresponding
states is an isomorphism. -/
theorem isIsomorphism_of_corresponds (heReach : e.Accessible) (hdReduced : d.Reduced)
    (heReduced : e.Reduced) {f : String → String}
    (hf : ∀ q ∈ d.states, Corresponds d e q (f q)) : IsIsomorphism d e f := by
  have hImage : ∀ q ∈ d.states, f q ∈ e.states := fun q hq => (hf q hq).mem_right hAlphabet he
  have hValue : ∀ q r, q ∈ d.states → Corresponds d e q r → f q = r := fun q r hq hPair =>
    (hf q hq).right_unique hAlphabet hSame he heReduced hPair
  have hOnto : ∀ r ∈ e.states, ∃ q ∈ d.states, f q = r := by
    intro r hr
    obtain ⟨q, hPair⟩ := heReach.exists_corresponds (e := d) hr
    have hq := hPair.mem_right hAlphabet.symm hd
    exact ⟨q, hq, hValue q r hq (hPair.symm hAlphabet.symm)⟩
  have hInjective : ∀ p ∈ d.states, ∀ q ∈ d.states, f p = f q → p = q := by
    intro p hp q hq hEq
    have hBoth := (hf p hp).symm hAlphabet
    rw [hEq] at hBoth
    exact hBoth.right_unique hAlphabet.symm (hSame.symm hAlphabet) hd hdReduced
      ((hf q hq).symm hAlphabet)
  refine ⟨hAlphabet, ⟨hImage, hInjective, hOnto⟩, hValue _ _ hd.start_mem .start, ?_, ?_⟩
  · ext r
    rw [SortedSet.mem_map]
    constructor
    · intro hr
      obtain ⟨q, hq, rfl⟩ := hr
      exact ((hf q (hd.accept_mem q hq)).mem_accept_iff hSame).mp hq
    · intro hr
      obtain ⟨q, hq, rfl⟩ := hOnto r (he.accept_mem r hr)
      exact ⟨q, ((hf q hq).mem_accept_iff hSame).mpr hr, rfl⟩
  · intro q hq a
    by_cases ha : a ∈ d.alphabet
    · rw [hd.next?_eq hq ha, he.next?_eq (hImage q hq) (hAlphabet ▸ ha), Option.map_some]
      exact congrArg some (hValue _ _ (hd.next_mem hq ha) ((hf q hq).next ha))
    · rw [hd.next?_eq_none fun hKey => ha hKey.2,
        he.next?_eq_none fun hKey => ha (hAlphabet ▸ hKey.2), Option.map_none]

/-- Automata with the same verdicts are isomorphic, if each has only reachable states and no
two indistinguishable ones. -/
theorem exists_isomorphism (hdReach : d.Accessible) (heReach : e.Accessible)
    (hdReduced : d.Reduced) (heReduced : e.Reduced) : ∃ f, IsIsomorphism d e f := by
  have hTotal : ∀ q ∈ d.states, ∃ r, Corresponds d e q r := fun q hq =>
    hdReach.exists_corresponds hq
  choose! f hf using hTotal
  exact ⟨f, isIsomorphism_of_corresponds hd he hAlphabet hSame heReach hdReduced heReduced hf⟩

end Uniqueness

/-- Automata for one language have the same minimal automaton, up to names. -/
theorem exists_isomorphism_minimize (hd : d.WellFormed) (he : e.WellFormed)
    (hAlphabet : d.alphabet = e.alphabet)
    (hRun : ∀ word : Word, (∀ a ∈ word, a ∈ d.alphabet) → d.run word = e.run word) :
    ∃ f, IsIsomorphism d.minimize e.minimize f := by
  have hMinimal : d.minimize.alphabet = e.minimize.alphabet := hAlphabet
  have hSame : SameVerdicts d.minimize e.minimize := by
    apply sameVerdicts_of_run_eq hMinimal
    intro word hWord
    rw [hd.run_minimize_eq, he.run_minimize_eq]
    exact hRun word hWord
  exact exists_isomorphism hd.wellFormed_minimize he.wellFormed_minimize hMinimal hSame
    hd.accessible_minimize he.accessible_minimize hd.reduced_minimize he.reduced_minimize

/-- Minimal automata of one language are the same up to the names of their states, and no
automaton of the language has fewer states. -/
theorem minimize_canonical (d e : Dfa) (hd : d.validate = .ok d) (he : e.validate = .ok e)
    (hAlphabet : d.alphabet = e.alphabet)
    (hRun : ∀ word : Word, (∀ a ∈ word, a ∈ d.alphabet) → d.run word = e.run word) :
    (∃ f, IsIsomorphism d.minimize e.minimize f) ∧ d.minimize.states.size ≤ e.states.size := by
  have hdWell := (validate_eq_ok_iff.mp hd).1
  have heWell := (validate_eq_ok_iff.mp he).1
  obtain ⟨f, iso⟩ := exists_isomorphism_minimize hdWell heWell hAlphabet hRun
  refine ⟨⟨f, iso⟩, ?_⟩
  rw [iso.size_eq]
  exact heWell.size_minimize_le

def parity : Dfa where
  alphabet := Alphabet.ofString "a"
  states := SortedSet.ofList ["even", "odd"]
  start := "even"
  accept := SortedSet.ofList ["odd"]
  table := SortedMap.ofList [(("even", 'a'), "odd"), (("odd", 'a'), "even")]

/-- The states `0` and `2` answer as `even` does, and `1` as `odd`. -/
theorem runFrom_parity_eq {word : Word} (hWord : ∀ a ∈ word, a ∈ parity.alphabet) :
    parity.runFrom "even" word = unfoldedParity.runFrom "0" word ∧
      parity.runFrom "even" word = unfoldedParity.runFrom "2" word ∧
      parity.runFrom "odd" word = unfoldedParity.runFrom "1" word := by
  induction word with
  | nil => exact ⟨rfl, rfl, rfl⟩
  | cons a word ih =>
      rw [List.forall_mem_cons] at hWord
      obtain rfl : a = 'a' := by simpa [parity] using hWord.1
      obtain ⟨hZero, hTwo, hOne⟩ := ih hWord.2
      exact ⟨hOne, hOne, hTwo⟩

/-- Of the four states of the second automaton two are left, as many as the first one has. -/
theorem minimize_canonical_parity :
    parity.validate = .ok parity ∧ unfoldedParity.validate = .ok unfoldedParity ∧
      (∃ f, IsIsomorphism parity.minimize unfoldedParity.minimize f) ∧
      parity.minimize.states.size ≤ unfoldedParity.states.size := by
  have hParity : parity.validate = .ok parity :=
    validate_eq_ok_iff.mpr ⟨faults_eq_nil_iff.mp (by decide), rfl⟩
  have hBoth := minimize_canonical parity unfoldedParity hParity validate_unfoldedParity rfl
    fun word hWord => (runFrom_parity_eq hWord).1
  exact ⟨hParity, validate_unfoldedParity, hBoth⟩

end Acceptors.Dfa
