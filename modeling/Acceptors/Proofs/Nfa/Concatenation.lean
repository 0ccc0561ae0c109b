import Acceptors.Proofs.Nfa.Elementary
import Acceptors.Proofs.Nfa.Graft
import Acceptors.Proofs.Validation

/-! The concatenation of automata. A path of the joint automaton either stays in the first part
or leaves it once, from an accept state, by a transition that is grafted there from a start state
of the second part. -/
namespace Acceptors.Nfa

variable {n m : Nfa}

def followedBy (n m : Nfa) : Nfa where
  alphabet := n.alphabet ∪ m.alphabet
  states := n.states ∪ m.states
  start := n.start
  accept := if m.acceptsEmptyWord then m.accept ∪ n.accept else m.accept
  table := graft (n.table.insertAll m.table.entries) n.accept m (n.alphabet ∪ m.alphabet)

/-- Concatenation first gives the operand states of its own, and then lets it follow. -/
theorem concat_eq_followedBy (n other : Nfa) :
    n.concat other = n.followedBy (n.disjointCopy other) := rfl

/-- Beside the accept states of the second part, those of the first accept if the second part
accepts the empty word. -/
theorem mem_followedBy_accept {r : String} :
    r ∈ (n.followedBy m).accept ↔
      r ∈ m.accept ∨ (r ∈ n.accept ∧ m.acceptsEmptyWord = true) := by
  change r ∈ (if m.acceptsEmptyWord then m.accept ∪ n.accept else m.accept) ↔ _
  by_cases hEmpty : m.acceptsEmptyWord = true
  · simp [hEmpty]
  · simp [hEmpty]

theorem declared_followedBy (hn : n.Declared) (hm : m.Declared) : (n.followedBy m).Declared := by
  have hBoth : ∀ {q : String}, (q ∈ n.states ∨ q ∈ m.states) → q ∈ (n.followedBy m).states :=
    fun hq => SortedSet.mem_union.mpr hq
  apply declared_of_targets
  · intro q hq
    exact hBoth (Or.inl (hn.start_mem q hq))
  · intro q hq
    rcases mem_followedBy_accept.mp hq with hq | ⟨hq, _⟩
    · exact hBoth (Or.inr (hm.accept_mem q hq))
    · exact hBoth (Or.inl (hn.accept_mem q hq))
  · intro q a hq
    rcases mem_graft hq with hOld | ⟨hSource, _⟩
    · exact hBoth ((mem_beside hOld).imp (hn.source_mem q a) (hm.source_mem q a))
    · exact hBoth (Or.inl (hn.accept_mem q hSource))
  · intro q a r hr
    rcases mem_targetsIn_graft.mp hr with hOld | ⟨_, _, s, _, hr⟩
    · exact hBoth ((mem_targetsIn_beside hOld).imp hn.target_mem_states hm.target_mem_states)
    · exact hBoth (Or.inr (hm.target_mem_states hr))

theorem wellFormed_followedBy (hn : n.WellFormed) (hm : m.WellFormed) :
    (n.followedBy m).WellFormed where
  toDeclared := declared_followedBy hn.toDeclared hm.toDeclared
  symbol_mem q a hq := by
    rcases mem_graft hq with hOld | ⟨_, ha⟩
    · exact SortedSet.mem_union.mpr ((mem_beside hOld).imp (hn.symbol_mem q a) (hm.symbol_mem q a))
    · exact ha

section Paths

variable (hn : n.WellFormed) (hm : m.WellFormed) (hDisjoint : ∀ q ∈ m.states, q ∉ n.states)

/-- The transitions of the first part, and from its accept states those of the start states of
the second. -/
theorem mem_followedBy_targets (hm : m.WellFormed) {q r : String} {a : Char} (hq : q ∉ m.states) :
    r ∈ (n.followedBy m).targets q a ↔
      r ∈ n.targets q a ∨ (q ∈ n.accept ∧ ∃ s ∈ m.start, r ∈ m.targets s a) := by
  have hIncluded : ∀ a ∈ m.alphabet, a ∈ n.alphabet ∪ m.alphabet := fun a ha =>
    SortedSet.mem_union.mpr (Or.inr ha)
  change r ∈ targetsIn (graft _ _ _ _) q a ↔ _
  rw [hm.mem_targetsIn_graft_iff hIncluded, targetsIn_beside_left hm.toDeclared hq]

include hn hm hDisjoint

/-- In the second part nothing has changed. -/
theorem followedBy_path_right {q r : String} {word : Word} (hq : q ∈ m.states) :
    (n.followedBy m).Path q word r ↔ m.Path q word r := by
  apply Path.congr_of_targets hm.toDeclared _ hq
  intro q hq a
  have hOther : q ∉ n.accept := fun hAccept => hDisjoint q hq (hn.accept_mem q hAccept)
  ext r
  change r ∈ targetsIn (graft _ _ _ _) q a ↔ _
  rw [mem_targetsIn_graft, targetsIn_beside_right hn.toDeclared (hDisjoint q hq)]
  simp [hOther]

/-- What leads on in the first part still does, for its transitions are only added to. -/
theorem followedBy_path_of_left {q r : String} {word : Word} (path : n.Path q word r)
    (hq : q ∈ n.states) : (n.followedBy m).Path q word r := by
  apply path.mono hn.toDeclared _ hq
  intro q hq a r hr
  have hOwn : q ∉ m.states := fun hBoth => hDisjoint q hBoth hq
  exact (mem_followedBy_targets hm hOwn).mpr (Or.inl hr)

/-- Accept states of the first part go on like start states of the second. -/
theorem followedBy_path_of_right {p s r : String} {word : Word} (hp : p ∈ n.accept)
    (hs : s ∈ m.start) (hWord : word ≠ []) (path : m.Path s word r) :
    (n.followedBy m).Path p word r := by
  have hOwn : p ∉ m.states := fun hBoth => hDisjoint p hBoth (hn.accept_mem p hp)
  cases path with
  | nil => exact absurd rfl hWord
  | cons first rest =>
      have hFirst := (mem_followedBy_targets hm hOwn).mpr (Or.inr ⟨hp, s, hs, first⟩)
      have hRest := (followedBy_path_right hn hm hDisjoint (hm.target_mem_states first)).mpr rest
      exact .cons hFirst hRest

/-- A path from the first part stays there, or after a word of the first part it goes on as a
path of the second from a start state. -/
theorem followedBy_path_split {q r : String} {word : Word} (hq : q ∈ n.states)
    (path : (n.followedBy m).Path q word r) :
    n.Path q word r ∨ ∃ u v, u ++ v = word ∧ (∃ p ∈ n.accept, n.Path q u p) ∧
      ∃ s ∈ m.start, m.Path s v r ∧ r ∈ m.states := by
  induction word generalizing q with
  | nil =>
      rw [Path.nil_iff] at path ⊢
      exact Or.inl path
  | cons a word ih =>
      obtain ⟨t, ht, rest⟩ := Path.cons_iff.mp path
      have hOwn : q ∉ m.states := fun hBoth => hDisjoint q hBoth hq
      rcases (mem_followedBy_targets hm hOwn).mp ht with ht | ⟨hAccept, s, hs, ht⟩
      · rcases ih (hn.target_mem_states ht) rest with rest | ⟨u, v, rfl, ⟨p, hp, left⟩, right⟩
        · exact Or.inl (.cons ht rest)
        · exact Or.inr ⟨a :: u, v, rfl, ⟨p, hp, .cons ht left⟩, right⟩
      · have hState := hm.target_mem_states ht
        have rest := (followedBy_path_right hn hm hDisjoint hState).mp rest
        have hLast := rest.mem_states hm.toDeclared hState
        exact Or.inr ⟨[], a :: word, rfl, ⟨q, hAccept, .nil q⟩, s, hs, .cons ht rest, hLast⟩

/-- A word is accepted if it is a word of the first part and then one of the second. -/
theorem language_followedBy : (n.followedBy m).language = n.language * m.language := by
  ext word
  rw [Language.mem_mul, mem_language]
  constructor
  · intro hWord
    obtain ⟨q, hq, r, hr, path⟩ := hWord
    have hStart := hn.start_mem q hq
    rcases followedBy_path_split hn hm hDisjoint hStart path with
      path | ⟨u, v, hSplit, ⟨p, hp, left⟩, s, hs, right, hState⟩
    · have hState := path.mem_states hn.toDeclared hStart
      rcases mem_followedBy_accept.mp hr with hr | ⟨hr, hEmpty⟩
      · exact absurd hState (hDisjoint r (hm.accept_mem r hr))
      · exact ⟨word, ⟨q, hq, r, hr, path⟩, [], acceptsEmptyWord_iff.mp hEmpty, List.append_nil _⟩
    · rcases mem_followedBy_accept.mp hr with hr | ⟨hr, _⟩
      · exact ⟨u, ⟨q, hq, p, hp, left⟩, v, ⟨s, hs, r, hr, right⟩, hSplit⟩
      · exact absurd (hn.accept_mem r hr) (hDisjoint r hState)
  · intro hWord
    obtain ⟨u, ⟨q, hq, p, hp, left⟩, v, hv, rfl⟩ := hWord
    have hFirst := followedBy_path_of_left hn hm hDisjoint left (hn.start_mem q hq)
    by_cases hEmpty : v = []
    · subst hEmpty
      have hAccept := mem_followedBy_accept.mpr (Or.inr ⟨hp, acceptsEmptyWord_iff.mpr hv⟩)
      rw [List.append_nil]
      exact ⟨q, hq, p, hAccept, hFirst⟩
    · obtain ⟨s, hs, r, hr, right⟩ := hv
      have hSecond := followedBy_path_of_right hn hm hDisjoint hp hs hEmpty right
      exact ⟨q, hq, r, mem_followedBy_accept.mpr (Or.inl hr), hFirst.append hSecond⟩

end Paths

/-- The operand may share states with the automaton and have an alphabet of its own. -/
theorem language_concat (hn : n.WellFormed) (hm : m.WellFormed) :
    (n.concat m).language = n.language * m.language := by
  rw [concat_eq_followedBy, language_followedBy hn (wellFormed_disjointCopy hm)
    (fun _ => disjointCopy_disjoint), language_disjointCopy hm.toDeclared]

theorem declared_concat (hn : n.Declared) (hm : m.Declared) : (n.concat m).Declared :=
  declared_followedBy hn (declared_disjointCopy hm)

theorem wellFormed_concat (hn : n.WellFormed) (hm : m.WellFormed) : (n.concat m).WellFormed :=
  wellFormed_followedBy hn (wellFormed_disjointCopy hm)

/-- A word over both alphabets is accepted if it splits into a word that the first part accepts
and a word that the second part accepts, and is rejected otherwise. -/
theorem concat_accepts_splits (hn : n.WellFormed) (hm : m.WellFormed) {word : Word}
    (hWord : ∀ a ∈ word, a ∈ n.alphabet ∪ m.alphabet) :
    ((n.concat m).run word = .ok true ↔
        ∃ u v, u ++ v = word ∧ n.run u = .ok true ∧ m.run v = .ok true) ∧
      ((n.concat m).run word = .ok false ↔
        ¬ ∃ u v, u ++ v = word ∧ n.run u = .ok true ∧ m.run v = .ok true) := by
  have hSplits : (∃ u v, u ++ v = word ∧ n.run u = .ok true ∧ m.run v = .ok true) ↔
      word ∈ (n.concat m).language := by
    rw [language_concat hn hm, Language.mem_mul]
    simp only [hn.run_eq_ok_true_iff, hm.run_eq_ok_true_iff]
    constructor
    · intro hParts
      obtain ⟨u, v, hSplit, hu, hv⟩ := hParts
      exact ⟨u, hu, v, hv, hSplit⟩
    · intro hParts
      obtain ⟨u, hu, v, hv, hSplit⟩ := hParts
      exact ⟨u, v, hSplit, hu, hv⟩
  rw [hSplits]
  exact run_verdict_iff hWord

/-- Words in which `a` and `b` alternate and that end with the `a` or are empty. Both states
start, and both are entered again. -/
def alternating : Nfa where
  alphabet := Alphabet.ofString "ab"
  states := SortedSet.ofList ["s0", "s1"]
  start := SortedSet.ofList ["s0", "s1"]
  accept := SortedSet.ofList ["s1"]
  table := SortedMap.ofList [(("s0", 'a'), SortedSet.ofList ["s1"]),
    (("s1", 'b'), SortedSet.ofList ["s0"])]

/-- The parts have the same state names and different alphabets. -/
theorem concat_accepts_splits_alternating :
    alternating.WellFormed ∧ (symbol (Alphabet.ofString "c") 'c').WellFormed ∧
      (alternating.concat (symbol (Alphabet.ofString "c") 'c')).run ['b', 'a', 'c'] = .ok true ∧
      ¬ ∃ u v, u ++ v = ['b', 'c', 'a'] ∧ alternating.run u = .ok true ∧
        (symbol (Alphabet.ofString "c") 'c').run v = .ok true := by
  have hFirst : alternating.WellFormed := faults_eq_nil_iff.mp (by decide)
  have hSecond : (symbol (Alphabet.ofString "c") 'c').WellFormed := wellFormed_symbol (by decide)
  have hKnown : ∀ a ∈ ['b', 'a', 'c'], a ∈ Alphabet.ofString "ab" ∪ Alphabet.ofString "c" :=
    Alphabet.firstForeign?_eq_none_iff.mp (by decide)
  have hMixed : ∀ a ∈ ['b', 'c', 'a'], a ∈ Alphabet.ofString "ab" ∪ Alphabet.ofString "c" :=
    Alphabet.firstForeign?_eq_none_iff.mp (by decide)
  have hAccepted := (concat_accepts_splits hFirst hSecond hKnown).1.mpr
  have hRejected := (concat_accepts_splits hFirst hSecond hMixed).2.mp
  exact ⟨hFirst, hSecond, hAccepted ⟨['b', 'a'], ['c'], rfl, rfl, rfl⟩, hRejected (by decide)⟩

end Acceptors.Nfa
