import Acceptors.Proofs.Nfa.History

/-! Alphabets that are widened. The automaton of one symbol is made with any symbol, also one that
its alphabet lacks. A transition for such a symbol is never followed, because a run reports the
symbol instead, until a combination with another automaton puts the symbol in the alphabet. -/
namespace Acceptors.Nfa

variable {n : Nfa} {a : Char}

/-- The automata that can be had if the automaton of one symbol is made with any symbol: those that
are had with known symbols only, and all combinations. -/
inductive Assembled : Nfa → Prop where
  | obtained {n : Nfa} (hn : n.Obtained) : Assembled n
  | symbol (alphabet : Alphabet) (a : Char) : Assembled (symbol alphabet a)
  | union {n m : Nfa} (hn : Assembled n) (hm : Assembled m) : Assembled (n.union m)
  | concat {n m : Nfa} (hn : Assembled n) (hm : Assembled m) : Assembled (n.concat m)
  | star {n : Nfa} (hn : Assembled n) : Assembled n.star

/-- Only the symbols of such an automaton may be undeclared. -/
theorem Assembled.declared (hn : n.Assembled) : n.Declared := by
  induction hn with
  | obtained hn => exact hn.wellFormed.toDeclared
  | symbol => exact declared_symbol
  | union _ _ ihLeft ihRight => exact declared_union ihLeft ihRight
  | concat _ _ ihLeft ihRight => exact declared_concat ihLeft ihRight
  | star _ ih => exact declared_star ih

/-- A symbol for which the table has an entry, and which the alphabet lacks. -/
def Dormant (n : Nfa) (a : Char) : Prop := a ∉ n.alphabet ∧ ∃ q, (q, a) ∈ n.table

theorem dormant_iff : n.Dormant a ↔ a ∉ n.alphabet ∧ ∃ key ∈ n.table.keys.toList, key.2 = a := by
  simp only [Dormant, SortedSet.mem_toList, SortedMap.mem_keys, Prod.exists, exists_eq_right]

instance : Decidable (n.Dormant a) := decidable_of_iff _ dormant_iff.symm

theorem WellFormed.not_dormant (hn : n.WellFormed) : ¬ n.Dormant a := by
  rintro ⟨ha, q, hKey⟩
  exact ha (hn.symbol_mem q a hKey)

/-- The symbols on a path are in the alphabet or dormant. -/
theorem Path.mem_alphabet_or_dormant {q r : String} {word : Word} (path : n.Path q word r) :
    ∀ a ∈ word, a ∈ n.alphabet ∨ n.Dormant a := by
  induction path with
  | nil => simp
  | @cons q r s a word first rest ih =>
      obtain ⟨targets, hGet, _⟩ := mem_targets.mp first
      have ha : a ∈ n.alphabet ∨ n.Dormant a := by
        by_cases ha : a ∈ n.alphabet
        · exact Or.inl ha
        · exact Or.inr ⟨ha, q, SortedMap.mem_of_get?_eq_some hGet⟩
      simpa using ⟨ha, ih⟩

/-- The union with no word at all has the same language and a larger alphabet. -/
theorem run_union_emptySet_iff (hn : n.Declared) (wider : Alphabet) (word : Word) :
    (n.union (emptySet wider)).run word = .ok true ↔
      word ∈ n.language ∧ ∀ a ∈ word, a ∈ n.alphabet ∨ a ∈ wider := by
  have hLanguage : (n.union (emptySet wider)).language = n.language := by
    rw [language_union hn wellFormed_emptySet.toDeclared, language_emptySet, add_zero]
  rw [run_eq_ok_true_iff, hLanguage]
  simp only [mem_union_alphabet]
  rfl

/-- If the alphabet is widened by no dormant symbol, the same words are accepted. -/
theorem run_union_emptySet_iff_run (hn : n.Declared) {wider : Alphabet}
    (hAwake : ∀ a ∈ wider, ¬ n.Dormant a) (word : Word) :
    (n.union (emptySet wider)).run word = .ok true ↔ n.run word = .ok true := by
  rw [run_union_emptySet_iff hn, run_eq_ok_true_iff, and_congr_right_iff]
  intro hWord
  obtain ⟨q, _, r, _, path⟩ := hWord
  constructor
  · intro hWider a ha
    rcases path.mem_alphabet_or_dormant a ha with hKnown | hDormant
    · exact hKnown
    · exact (hWider a ha).resolve_right fun hNew => hAwake a hNew hDormant
  · intro hKnown a ha
    exact Or.inl (hKnown a ha)

/-- An automaton whose alphabet is widened by a union with no word accepts the words that lead from a
start state to an accept state and that are over both alphabets. It accepts all words that it
accepted before. It accepts no others if no dormant symbol is added, and there is none to add if
every automaton of one symbol that it was put together from was made with a symbol of its alphabet. -/
theorem widening_wakes_dormant_symbols_only (hn : n.Assembled) (wider : Alphabet) :
    (∀ word, (n.union (emptySet wider)).run word = .ok true ↔
      word ∈ n.language ∧ ∀ a ∈ word, a ∈ n.alphabet ∨ a ∈ wider) ∧
    (∀ word, n.run word = .ok true → (n.union (emptySet wider)).run word = .ok true) ∧
    ((∀ a ∈ wider, ¬ n.Dormant a) → ∀ word,
      ((n.union (emptySet wider)).run word = .ok true ↔ n.run word = .ok true)) ∧
    (n.Obtained → ∀ word,
      ((n.union (emptySet wider)).run word = .ok true ↔ n.run word = .ok true)) := by
  have hDeclared := hn.declared
  refine ⟨run_union_emptySet_iff hDeclared wider, ?_, run_union_emptySet_iff_run hDeclared, ?_⟩
  · intro word hRun
    obtain ⟨hLanguage, hKnown⟩ := run_eq_ok_true_iff.mp hRun
    rw [run_union_emptySet_iff hDeclared]
    exact ⟨hLanguage, fun a ha => Or.inl (hKnown a ha)⟩
  · intro hObtained
    exact run_union_emptySet_iff_run hDeclared fun a _ => hObtained.wellFormed.not_dormant

/-- The letters `a` and `b` over an alphabet that lacks `b`. -/
def mislabelled : Nfa :=
  (symbol (Alphabet.ofString "a") 'a').union (symbol (Alphabet.ofString "a") 'b')

/-- The dormant letter is `b`, and another letter does not wake it. -/
theorem widening_wakes_dormant_symbols_only_mislabelled :
    mislabelled.Assembled ∧ mislabelled.Dormant 'b' ∧ mislabelled.run ['a'] = .ok true ∧
      ∀ word, (mislabelled.union (emptySet (Alphabet.ofString "c"))).run word = .ok true ↔
        mislabelled.run word = .ok true := by
  have hAssembled : mislabelled.Assembled := .union (.symbol _ 'a') (.symbol _ 'b')
  have hDormant : mislabelled.Dormant 'b' := by decide
  have hAwake : ∀ a ∈ Alphabet.ofString "c", ¬ mislabelled.Dormant a := by
    intro a ha
    have ha : a = 'c' := by simpa using ha
    rw [ha]
    decide
  obtain ⟨_, _, hSame, _⟩ :=
    widening_wakes_dormant_symbols_only hAssembled (Alphabet.ofString "c")
  exact ⟨hAssembled, hDormant, rfl, hSame hAwake⟩

/-- The letter `b` over the alphabet of `a` is reported as foreign, and is accepted after a union
with no word over the alphabet of `b`. -/
theorem widening_accepts_more :
    (symbol (Alphabet.ofString "a") 'b').Assembled ∧
      ¬ (((symbol (Alphabet.ofString "a") 'b').union
          (emptySet (Alphabet.ofString "b"))).run ['b'] = .ok true ↔
        (symbol (Alphabet.ofString "a") 'b').run ['b'] = .ok true) :=
  ⟨.symbol _ 'b', by decide⟩

end Acceptors.Nfa
