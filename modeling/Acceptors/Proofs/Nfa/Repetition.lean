import Acceptors.Proofs.Nfa.Graft
import Acceptors.Proofs.Validation

/-! The repetition of automata. Without moves that read nothing, an accept state goes on as a
start state by repeating its transitions. A path is cut into words of the language where it uses
a repeated transition. -/
namespace Acceptors.Nfa

open Computability

variable {n : Nfa}

def looped (n : Nfa) : Nfa := { n with table := graft n.table n.accept n n.alphabet }

/-- The automaton with another state, from which only the empty word is accepted. -/
def withEmptyWord (n : Nfa) (state : String) : Nfa where
  alphabet := n.alphabet
  states := n.states.insert state
  start := n.start.insert state
  accept := n.accept.insert state
  table := n.table

/-- A state is only added where the empty word would not be accepted without it. -/
theorem star_eq (n : Nfa) :
    n.star = if n.acceptsEmptyWord then n.looped
      else n.looped.withEmptyWord (Name.fresh n.states "e") := rfl

theorem alphabet_star (n : Nfa) : n.star.alphabet = n.alphabet := by
  rw [star_eq]
  split
  · rfl
  · rfl

theorem declared_looped (hn : n.Declared) : n.looped.Declared := by
  apply declared_of_targets (n := n.looped) hn.start_mem hn.accept_mem
  · intro q a hq
    rcases mem_graft hq with hOld | ⟨hSource, _⟩
    · exact hn.source_mem q a hOld
    · exact hn.accept_mem q hSource
  · intro q a r hr
    rcases mem_targetsIn_graft.mp hr with hOld | ⟨_, _, s, _, hr⟩
    · exact hn.target_mem_states hOld
    · exact hn.target_mem_states hr

/-- The transitions that are repeated are between declared states and on declared symbols. -/
theorem wellFormed_looped (hn : n.WellFormed) : n.looped.WellFormed where
  toDeclared := declared_looped hn.toDeclared
  symbol_mem q a hq := by
    rcases mem_graft hq with hOld | ⟨_, ha⟩
    · exact hn.symbol_mem q a hOld
    · exact ha

theorem declared_withEmptyWord (hn : n.Declared) (state : String) :
    (n.withEmptyWord state).Declared := by
  have hOld : ∀ {q : String}, q ∈ n.states → q ∈ n.states.insert state := fun hq =>
    SortedSet.mem_insert.mpr (Or.inr hq)
  apply declared_of_targets
  · intro q hq
    exact SortedSet.mem_insert.mpr ((SortedSet.mem_insert.mp hq).imp_right (hn.start_mem q))
  · intro q hq
    exact SortedSet.mem_insert.mpr ((SortedSet.mem_insert.mp hq).imp_right (hn.accept_mem q))
  · intro q a hq
    exact hOld (hn.source_mem q a hq)
  · intro q a r hr
    exact hOld (hn.target_mem_states hr)

theorem wellFormed_withEmptyWord (hn : n.WellFormed) (state : String) :
    (n.withEmptyWord state).WellFormed :=
  ⟨declared_withEmptyWord hn.toDeclared state, hn.symbol_mem⟩

section Loop

variable (hn : n.WellFormed)
include hn

/-- An accept state goes on by its own transitions and by those of all start states. -/
theorem mem_looped_targets {q r : String} {a : Char} :
    r ∈ n.looped.targets q a ↔
      r ∈ n.targets q a ∨ (q ∈ n.accept ∧ ∃ s ∈ n.start, r ∈ n.targets s a) :=
  hn.mem_targetsIn_graft_iff fun _ ha => ha

/-- What leads on still does when transitions are added. -/
theorem looped_path {q r : String} {word : Word} (path : n.Path q word r) (hq : q ∈ n.states) :
    n.looped.Path q word r := by
  apply path.mono hn.toDeclared _ hq
  intro q _ a r hr
  exact (mem_looped_targets hn).mpr (Or.inl hr)

/-- An accepting path is cut into a path of the automaton itself to an accept state, and words
of its language. -/
theorem looped_path_split {q r : String} {word : Word} (path : n.looped.Path q word r)
    (hr : r ∈ n.accept) :
    ∃ u v, u ++ v = word ∧ (∃ p ∈ n.accept, n.Path q u p) ∧ v ∈ n.language∗ := by
  induction path with
  | nil q => exact ⟨[], [], rfl, ⟨q, hr, .nil q⟩, Language.nil_mem_kstar _⟩
  | @cons q t r a word first rest ih =>
      obtain ⟨u, v, rfl, ⟨p, hp, left⟩, hv⟩ := ih hr
      rcases (mem_looped_targets hn).mp first with ht | ⟨hAccept, s, hs, ht⟩
      · exact ⟨a :: u, v, rfl, ⟨p, hp, .cons ht left⟩, hv⟩
      · have hPiece : a :: u ∈ n.language := ⟨s, hs, p, hp, .cons ht left⟩
        refine ⟨[], a :: (u ++ v), rfl, ⟨q, hAccept, .nil q⟩, ?_⟩
        rw [← Language.one_add_self_mul_kstar_eq_kstar, Language.mem_add]
        exact Or.inr (Language.append_mem_mul hPiece hv)

/-- From an accept state, any number of words of the language can be read. -/
theorem exists_looped_path {pieces : List Word} (hPieces : ∀ u ∈ pieces, u ∈ n.language)
    {p : String} (hp : p ∈ n.accept) : ∃ r ∈ n.accept, n.looped.Path p pieces.flatten r := by
  induction pieces generalizing p with
  | nil => exact ⟨p, hp, .nil p⟩
  | cons u pieces ih =>
      rw [List.forall_mem_cons] at hPieces
      obtain ⟨s, hs, t, ht, path⟩ := hPieces.1
      rw [List.flatten_cons]
      cases path with
      | nil => exact ih hPieces.2 hp
      | cons first rest =>
          obtain ⟨r, hr, others⟩ := ih hPieces.2 ht
          have hFirst := (mem_looped_targets hn).mpr (Or.inr ⟨hp, s, hs, first⟩)
          have hRest := looped_path hn rest (hn.target_mem_states first)
          exact ⟨r, hr, .cons hFirst (hRest.append others)⟩

/-- Between the uses of repeated transitions a path reads words of the language, at least one in
all. -/
theorem language_looped : n.looped.language = n.language * n.language∗ := by
  ext word
  rw [Language.mem_mul, mem_language]
  constructor
  · intro hWord
    obtain ⟨q, hq, r, hr, path⟩ := hWord
    obtain ⟨u, v, hSplit, ⟨p, hp, left⟩, hv⟩ := looped_path_split hn path hr
    exact ⟨u, ⟨q, hq, p, hp, left⟩, v, hv, hSplit⟩
  · intro hWord
    obtain ⟨u, ⟨q, hq, p, hp, left⟩, v, hv, rfl⟩ := hWord
    obtain ⟨pieces, rfl, hPieces⟩ := Language.mem_kstar.mp hv
    obtain ⟨r, hr, right⟩ := exists_looped_path hn hPieces hp
    exact ⟨q, hq, r, hr, (looped_path hn left (hn.start_mem q hq)).append right⟩

end Loop

/-- A state without transitions adds the empty word. -/
theorem language_withEmptyWord (hn : n.Declared) {state : String} (hState : state ∉ n.states) :
    (n.withEmptyWord state).language = 1 + n.language := by
  have hOld : ∀ {q r : String} {word : Word}, q ∈ n.states →
      ((n.withEmptyWord state).Path q word r ↔ n.Path q word r) := fun hq =>
    Path.congr_of_targets (m := n.withEmptyWord state) hn (fun _ _ _ => rfl) hq
  ext word
  rw [Language.mem_add, Language.mem_one, mem_language, mem_language]
  constructor
  · intro hWord
    obtain ⟨q, hq, r, hr, path⟩ := hWord
    rcases SortedSet.mem_insert.mp hq with rfl | hq
    · cases path with
      | nil => exact Or.inl rfl
      | cons first rest => exact absurd (hn.source_mem_states first) hState
    · have path := (hOld (hn.start_mem q hq)).mp path
      have hEnd := path.mem_states hn (hn.start_mem q hq)
      rcases SortedSet.mem_insert.mp hr with rfl | hr
      · exact absurd hEnd hState
      · exact Or.inr ⟨q, hq, r, hr, path⟩
  · intro hWord
    rcases hWord with rfl | ⟨q, hq, r, hr, path⟩
    · exact ⟨state, SortedSet.mem_insert.mpr (Or.inl rfl), state,
        SortedSet.mem_insert.mpr (Or.inl rfl), .nil state⟩
    · exact ⟨q, SortedSet.mem_insert.mpr (Or.inr hq), r, SortedSet.mem_insert.mpr (Or.inr hr),
        (hOld (hn.start_mem q hq)).mpr path⟩

/-- Repetition gives the chains of words of the language, the empty chain included. -/
theorem language_star (hn : n.WellFormed) : n.star.language = n.language∗ := by
  rw [star_eq]
  by_cases hEmpty : n.acceptsEmptyWord = true
  · rw [if_pos hEmpty, language_looped hn]
    ext word
    constructor
    · intro hWord
      rw [← Language.one_add_self_mul_kstar_eq_kstar, Language.mem_add]
      exact Or.inr hWord
    · intro hWord
      exact Language.mem_mul.mpr ⟨[], acceptsEmptyWord_iff.mp hEmpty, word, hWord, rfl⟩
  · rw [if_neg hEmpty, language_withEmptyWord (declared_looped hn.toDeclared)
      (Name.fresh_not_mem n.states "e"), language_looped hn,
      Language.one_add_self_mul_kstar_eq_kstar]

theorem declared_star (hn : n.Declared) : n.star.Declared := by
  rw [star_eq]
  by_cases hEmpty : n.acceptsEmptyWord = true
  · rw [if_pos hEmpty]
    exact declared_looped hn
  · rw [if_neg hEmpty]
    exact declared_withEmptyWord (declared_looped hn) _

theorem wellFormed_star (hn : n.WellFormed) : n.star.WellFormed := by
  rw [star_eq]
  by_cases hEmpty : n.acceptsEmptyWord = true
  · rw [if_pos hEmpty]
    exact wellFormed_looped hn
  · rw [if_neg hEmpty]
    exact wellFormed_withEmptyWord (wellFormed_looped hn) _

/-- A word is accepted if it is a chain of accepted words, and is rejected otherwise. -/
theorem star_verdict_iff (hn : n.WellFormed) {word : Word} (hWord : ∀ a ∈ word, a ∈ n.alphabet) :
    (n.star.run word = .ok true ↔
        ∃ pieces : List Word, pieces.flatten = word ∧ ∀ u ∈ pieces, n.run u = .ok true) ∧
      (n.star.run word = .ok false ↔
        ¬ ∃ pieces : List Word, pieces.flatten = word ∧ ∀ u ∈ pieces, n.run u = .ok true) := by
  have hChain : (∃ pieces : List Word, pieces.flatten = word ∧ ∀ u ∈ pieces, n.run u = .ok true) ↔
      word ∈ n.star.language := by
    rw [language_star hn, Language.mem_kstar]
    simp only [hn.run_eq_ok_true_iff, @eq_comm _ word]
  rw [hChain]
  apply run_verdict_iff
  rwa [alphabet_star]

/-- Where the empty word is accepted already, no state is added. -/
theorem star_states_eq (hEmpty : n.acceptsEmptyWord = true) : n.star.states = n.states := by
  rw [star_eq, if_pos hEmpty]
  rfl

/-- Otherwise there is one state more, with a name that was not in use. -/
theorem exists_star_states_eq (hEmpty : n.acceptsEmptyWord = false) :
    ∃ state, state ∉ n.states ∧ n.star.states = n.states.insert state := by
  refine ⟨Name.fresh n.states "e", Name.fresh_not_mem n.states "e", ?_⟩
  rw [star_eq, hEmpty]
  rfl

/-- Repetition accepts the chains of accepted words. It adds a state only for the empty word, and
only if that was not accepted before. -/
theorem star_accepts_chains (hn : n.WellFormed) :
    (∀ word : Word, (∀ a ∈ word, a ∈ n.alphabet) →
      (n.star.run word = .ok true ↔
          ∃ pieces : List Word, pieces.flatten = word ∧ ∀ u ∈ pieces, n.run u = .ok true) ∧
        (n.star.run word = .ok false ↔
          ¬ ∃ pieces : List Word, pieces.flatten = word ∧ ∀ u ∈ pieces, n.run u = .ok true)) ∧
      (n.run [] = .ok true → n.star.states = n.states) ∧
      (n.run [] = .ok false →
        (∃ state, state ∉ n.states ∧ n.star.states = n.states.insert state) ∧
          n.star.states.size = n.states.size + 1) := by
  refine ⟨fun _ hWord => star_verdict_iff hn hWord, ?_, ?_⟩
  · intro hAccepted
    exact star_states_eq (Except.ok.inj hAccepted)
  · intro hRejected
    obtain ⟨state, hNew, hStates⟩ := exists_star_states_eq (Except.ok.inj hRejected)
    rw [hStates, SortedSet.size_insert hNew]
    exact ⟨⟨state, hNew, rfl⟩, rfl⟩

/-- An `a`, and any number of times `ba` after it. The start state is entered again, and the name
of the accept state is the one that repetition would choose. -/
def reentered : Nfa where
  alphabet := Alphabet.ofString "ab"
  states := SortedSet.ofList ["e", "s"]
  start := SortedSet.ofList ["s"]
  accept := SortedSet.ofList ["e"]
  table := SortedMap.ofList [(("s", 'a'), SortedSet.ofList ["e"]),
    (("e", 'b'), SortedSet.ofList ["s"])]

/-- Two words of `reentered` make a chain, but the return to its start state alone does not. -/
theorem star_accepts_chains_reentered :
    reentered.WellFormed ∧ reentered.star.run ['a', 'a', 'b', 'a'] = .ok true ∧
      (¬ ∃ pieces : List Word, pieces.flatten = ['a', 'b'] ∧
        ∀ u ∈ pieces, reentered.run u = .ok true) ∧
      reentered.star.states.size = 3 := by
  have hWellFormed : reentered.WellFormed := faults_eq_nil_iff.mp (by decide)
  obtain ⟨hVerdicts, _, hAdded⟩ := star_accepts_chains hWellFormed
  have hKnown : ∀ a ∈ ['a', 'a', 'b', 'a'], a ∈ reentered.alphabet :=
    Alphabet.firstForeign?_eq_none_iff.mp (by decide)
  have hShort : ∀ a ∈ ['a', 'b'], a ∈ reentered.alphabet :=
    Alphabet.firstForeign?_eq_none_iff.mp (by decide)
  have hChain := (hVerdicts _ hKnown).1.mpr
  have hBroken := (hVerdicts _ hShort).2.mp
  exact ⟨hWellFormed, hChain ⟨[['a'], ['a', 'b', 'a']], rfl, by decide⟩, hBroken (by decide),
    (hAdded rfl).2⟩

end Acceptors.Nfa
