import Acceptors.Proofs.Nfa.Graft
import Acceptors.Proofs.Validation

/-! The union of automata. Two automata without a common state can stand side by side: a path
stays in the automaton that it starts in. -/
namespace Acceptors.Nfa

variable {n m : Nfa}

def beside (n m : Nfa) : Nfa where
  alphabet := n.alphabet ∪ m.alphabet
  states := n.states ∪ m.states
  start := n.start ∪ m.start
  accept := n.accept ∪ m.accept
  table := n.table.insertAll m.table.entries

/-- A union first gives the operand states of its own, and then puts it beside. -/
theorem union_eq_beside (n other : Nfa) : n.union other = n.beside (n.disjointCopy other) := rfl

theorem declared_beside (hn : n.Declared) (hm : m.Declared) : (n.beside m).Declared := by
  have hBoth : ∀ {q : String}, (q ∈ n.states ∨ q ∈ m.states) → q ∈ (n.beside m).states :=
    fun hq => SortedSet.mem_union.mpr hq
  apply declared_of_targets
  · intro q hq
    exact hBoth ((SortedSet.mem_union.mp hq).imp (hn.start_mem q) (hm.start_mem q))
  · intro q hq
    exact hBoth ((SortedSet.mem_union.mp hq).imp (hn.accept_mem q) (hm.accept_mem q))
  · intro q a hq
    exact hBoth ((mem_beside hq).imp (hn.source_mem q a) (hm.source_mem q a))
  · intro q a r hr
    exact hBoth ((mem_targetsIn_beside hr).imp hn.target_mem_states hm.target_mem_states)

/-- What one part declares stays declared in both together. -/
theorem wellFormed_beside (hn : n.WellFormed) (hm : m.WellFormed) : (n.beside m).WellFormed where
  toDeclared := declared_beside hn.toDeclared hm.toDeclared
  symbol_mem q a hq :=
    SortedSet.mem_union.mpr ((mem_beside hq).imp (hn.symbol_mem q a) (hm.symbol_mem q a))

section Paths

variable (hn : n.Declared) (hm : m.Declared) (hDisjoint : ∀ q ∈ m.states, q ∉ n.states)
include hn hm hDisjoint

/-- No path changes from one part to the other. -/
theorem beside_path_left {q r : String} {word : Word} (hq : q ∈ n.states) :
    (n.beside m).Path q word r ↔ n.Path q word r := by
  apply Path.congr_of_targets hn _ hq
  intro q hq a
  exact targetsIn_beside_left hm fun hBoth => hDisjoint q hBoth hq

theorem beside_path_right {q r : String} {word : Word} (hq : q ∈ m.states) :
    (n.beside m).Path q word r ↔ m.Path q word r := by
  apply Path.congr_of_targets hm _ hq
  intro q hq a
  exact targetsIn_beside_right hn (hDisjoint q hq)

/-- A word is accepted if it is accepted in one of the parts. -/
theorem language_beside : (n.beside m).language = n.language + m.language := by
  ext word
  rw [Language.mem_add, mem_language, mem_language, mem_language]
  constructor
  · intro hWord
    obtain ⟨q, hq, r, hr, path⟩ := hWord
    rcases SortedSet.mem_union.mp hq with hq | hq
    · have path := (beside_path_left hn hm hDisjoint (hn.start_mem q hq)).mp path
      have hState := path.mem_states hn (hn.start_mem q hq)
      rcases SortedSet.mem_union.mp hr with hr | hr
      · exact Or.inl ⟨q, hq, r, hr, path⟩
      · exact absurd hState (hDisjoint r (hm.accept_mem r hr))
    · have path := (beside_path_right hn hm hDisjoint (hm.start_mem q hq)).mp path
      have hState := path.mem_states hm (hm.start_mem q hq)
      rcases SortedSet.mem_union.mp hr with hr | hr
      · exact absurd (hn.accept_mem r hr) (hDisjoint r hState)
      · exact Or.inr ⟨q, hq, r, hr, path⟩
  · intro hWord
    rcases hWord with hWord | hWord
    · obtain ⟨q, hq, r, hr, path⟩ := hWord
      exact ⟨q, SortedSet.mem_union.mpr (Or.inl hq), r, SortedSet.mem_union.mpr (Or.inl hr),
        (beside_path_left hn hm hDisjoint (hn.start_mem q hq)).mpr path⟩
    · obtain ⟨q, hq, r, hr, path⟩ := hWord
      exact ⟨q, SortedSet.mem_union.mpr (Or.inr hq), r, SortedSet.mem_union.mpr (Or.inr hr),
        (beside_path_right hn hm hDisjoint (hm.start_mem q hq)).mpr path⟩

end Paths

/-- Neither the names of the states nor a difference between the alphabets matters for the
language. -/
theorem language_union (hn : n.Declared) (hm : m.Declared) :
    (n.union m).language = n.language + m.language := by
  rw [union_eq_beside, language_beside hn (declared_disjointCopy hm)
    (fun _ => disjointCopy_disjoint), language_disjointCopy hm]

theorem declared_union (hn : n.Declared) (hm : m.Declared) : (n.union m).Declared :=
  declared_beside hn (declared_disjointCopy hm)

theorem wellFormed_union (hn : n.WellFormed) (hm : m.WellFormed) : (n.union m).WellFormed :=
  wellFormed_beside hn (wellFormed_disjointCopy hm)

/-- Renaming leaves the symbols alone, so that the alphabet is that of both parts. -/
theorem mem_union_alphabet {a : Char} :
    a ∈ (n.union m).alphabet ↔ a ∈ n.alphabet ∨ a ∈ m.alphabet :=
  SortedSet.mem_union

/-- A word over both alphabets is accepted if one of the parts accepts it, and is rejected
otherwise, whatever state names the parts have in common. -/
theorem union_accepts_either (hn : n.WellFormed) (hm : m.WellFormed) :
    (∀ a, a ∈ (n.union m).alphabet ↔ a ∈ n.alphabet ∨ a ∈ m.alphabet) ∧
      ∀ word : Word, (∀ a ∈ word, a ∈ (n.union m).alphabet) →
        ((n.union m).run word = .ok true ↔ n.run word = .ok true ∨ m.run word = .ok true) ∧
          ((n.union m).run word = .ok false ↔
            ¬ (n.run word = .ok true ∨ m.run word = .ok true)) := by
  refine ⟨fun a => mem_union_alphabet, ?_⟩
  intro word hWord
  have hEither : (n.run word = .ok true ∨ m.run word = .ok true) ↔
      word ∈ (n.union m).language := by
    rw [language_union hn.toDeclared hm.toDeclared, Language.mem_add, hn.run_eq_ok_true_iff,
      hm.run_eq_ok_true_iff]
  rw [hEither]
  exact run_verdict_iff hWord

/-- Words of at least two `a`. The states count the letters up to that. -/
def twoOrMore : Nfa where
  alphabet := Alphabet.ofString "a"
  states := SortedSet.ofList ["q1", "q2", "q3"]
  start := SortedSet.ofList ["q1"]
  accept := SortedSet.ofList ["q3"]
  table := SortedMap.ofList [(("q1", 'a'), SortedSet.ofList ["q2"]),
    (("q2", 'a'), SortedSet.ofList ["q3"]), (("q3", 'a'), SortedSet.ofList ["q3"])]

/-- Words of the letter `b` only. The number of the second state follows on those of `twoOrMore`. -/
def repeatedB : Nfa where
  alphabet := Alphabet.ofString "ab"
  states := SortedSet.ofList ["q3", "q4"]
  start := SortedSet.ofList ["q3", "q4"]
  accept := SortedSet.ofList ["q4"]
  table := SortedMap.ofList [(("q3", 'b'), SortedSet.ofList ["q3", "q4"])]

/-- The shared state is `q3`, and its next number is in use. -/
theorem union_accepts_either_numbered :
    twoOrMore.WellFormed ∧ repeatedB.WellFormed ∧
      (twoOrMore.union repeatedB).run ['a', 'a'] = .ok true ∧
      (twoOrMore.union repeatedB).run ['b', 'b'] = .ok true ∧
      (twoOrMore.union repeatedB).run ['a', 'a', 'b'] = .ok false := by
  have hFirst : twoOrMore.WellFormed := faults_eq_nil_iff.mp (by decide)
  have hSecond : repeatedB.WellFormed := faults_eq_nil_iff.mp (by decide)
  obtain ⟨hAlphabet, hVerdicts⟩ := union_accepts_either hFirst hSecond
  have hKnown : ∀ word : Word, repeatedB.alphabet.firstForeign? word = none →
      ∀ a ∈ word, a ∈ (twoOrMore.union repeatedB).alphabet := by
    intro word hNone a ha
    exact (hAlphabet a).mpr (Or.inr (Alphabet.firstForeign?_eq_none_iff.mp hNone a ha))
  have hCounted := (hVerdicts ['a', 'a'] (hKnown _ (by decide))).1.mpr
  have hOther := (hVerdicts ['b', 'b'] (hKnown _ (by decide))).1.mpr
  have hMixed := (hVerdicts ['a', 'a', 'b'] (hKnown _ (by decide))).2.mpr
  exact ⟨hFirst, hSecond, hCounted (Or.inl rfl), hOther (Or.inr rfl), hMixed (by decide)⟩

end Acceptors.Nfa
