import Acceptors.Proofs.Pda.Description
import Acceptors.Proofs.Pda.Exploration

/-! Searches of automata that are built as deterministic ones. Each key then has at most one move, but
a key that reads the next symbol and one that reads nothing may be tried for the same configuration.
The search has a choice only where both have their move, and the configurations that are pending
are then at different places of the word. -/
namespace Acceptors.Pda

variable {p : Pda} {c d : Configuration} {word : Word} {pending later : List Configuration}
  {turns limit : Nat}

/-! Automata with at most one move for each key. -/

def OneMovePerKey (p : Pda) : Prop := ∀ q symbol top, (p.moves q symbol top).length ≤ 1

/-- A deterministic build fails where a key has two moves. -/
theorem oneMovePerKey_of_build {draft : Draft} (hBuild : draft.build true = .ok p) :
    p.OneMovePerKey := by
  obtain ⟨_, hDeterministic, hp⟩ := Draft.of_build hBuild
  intro q symbol top
  rw [moves]
  cases hMoves : p.table.get? (q, symbol, top) with
  | none => simp
  | some moves => exact hp.at_most_one hDeterministic _ _ hMoves

theorem OneMovePerKey.length_readingSteps_le (hOne : p.OneMovePerKey) (c : Configuration) :
    (p.readingSteps c).length ≤ 1 := by
  rw [readingSteps]
  split
  · simpa using hOne _ _ _
  · simp

theorem OneMovePerKey.length_silentSteps_le (hOne : p.OneMovePerKey) (c : Configuration) :
    (p.silentSteps c).length ≤ 1 := by
  rw [silentSteps]
  split
  · simpa using hOne _ _ _
  · simp

/-- A configuration from which one move reads the next symbol and another reads nothing. -/
def Competing (p : Pda) (c : Configuration) : Prop := p.readingSteps c ≠ [] ∧ p.silentSteps c ≠ []

/-- No moves compete if every key that reads nothing differs in its state or its stack top from all
keys that read a symbol. -/
theorem not_competing_of_table
    (hTable : ∀ silent ∈ p.table.entries, ∀ reading ∈ p.table.entries, silent.1.2.1 = none →
      reading.1.2.1 ≠ none → silent.1.1 = reading.1.1 → silent.1.2.2 ≠ reading.1.2.2)
    (c : Configuration) : ¬ p.Competing c := by
  rintro ⟨hReading, hSilent⟩
  rw [readingSteps] at hReading
  split at hReading
  · next top below a word hStack hUnread =>
      simp only [silentSteps, hStack, ne_eq, List.map_eq_nil_iff] at hReading hSilent
      obtain ⟨move, hMove⟩ := List.exists_mem_of_ne_nil _ hReading
      obtain ⟨another, hAnother⟩ := List.exists_mem_of_ne_nil _ hSilent
      obtain ⟨moves, hMoves, _⟩ := mem_moves.mp hMove
      obtain ⟨others, hOthers, _⟩ := mem_moves.mp hAnother
      exact hTable _ (SortedMap.mem_entries_iff.mpr hOthers) _ (SortedMap.mem_entries_iff.mpr hMoves)
        rfl (by simp) rfl rfl
  · exact hReading rfl

/-- More than one configuration comes next only where moves compete. -/
theorem OneMovePerKey.length_children_le_one_iff (hOne : p.OneMovePerKey) :
    (p.children c).length ≤ 1 ↔ ¬ p.Competing c := by
  have hReading := hOne.length_readingSteps_le c
  have hSilent := hOne.length_silentSteps_le c
  simp only [children, Competing, List.length_append, ne_eq, ← List.length_eq_zero_iff]
  omega

/-! What is pending. -/

theorem unread_of_mem_readingSteps (hd : d ∈ p.readingSteps c) :
    d.unread.length < c.unread.length := by
  rw [readingSteps] at hd
  split at hd
  · next hUnread =>
      obtain ⟨move, _, rfl⟩ := List.mem_map.mp hd
      simp [Move.apply, hUnread]
  · cases hd

theorem unread_of_mem_silentSteps (hd : d ∈ p.silentSteps c) : d.unread = c.unread := by
  rw [silentSteps] at hd
  split at hd
  · obtain ⟨move, _, rfl⟩ := List.mem_map.mp hd
    rfl
  · cases hd

/-- No move goes back in the word. -/
theorem unread_le_of_mem_children (hd : d ∈ p.children c) : d.unread.length ≤ c.unread.length := by
  rcases List.mem_append.mp hd with hReading | hSilent
  · exact Nat.le_of_lt (unread_of_mem_readingSteps hReading)
  · rw [unread_of_mem_silentSteps hSilent]

/-- Each of these has read more of the word than the next. -/
def Staggered (pending : List Configuration) : Prop :=
  pending.Pairwise fun c d => c.unread.length < d.unread.length

theorem staggered_of_length_le_one (hLength : pending.length ≤ 1) : Staggered pending := by
  match pending, hLength with
  | [], _ => exact .nil
  | [c], _ => exact List.pairwise_singleton _ c

/-- A move that reads comes before one that does not, and both before what has been pending. -/
theorem OneMovePerKey.staggered_children (hOne : p.OneMovePerKey)
    (hStaggered : Staggered (c :: later)) : Staggered (p.children c ++ later) := by
  obtain ⟨hFirst, hLater⟩ := List.pairwise_cons.mp hStaggered
  have hChildren : Staggered (p.children c) := by
    refine List.pairwise_append.mpr ⟨staggered_of_length_le_one (hOne.length_readingSteps_le c),
      staggered_of_length_le_one (hOne.length_silentSteps_le c), ?_⟩
    intro d hReading e hSilent
    rw [unread_of_mem_silentSteps hSilent]
    exact unread_of_mem_readingSteps hReading
  refine List.pairwise_append.mpr ⟨hChildren, hLater, ?_⟩
  intro d hd e he
  exact Nat.lt_of_le_of_lt (unread_le_of_mem_children hd) (hFirst e he)

/-- There is room for one configuration at each place of the word, its end included. -/
theorem Staggered.length_le {bound : Nat} (hStaggered : Staggered pending)
    (hBound : ∀ c ∈ pending, c.unread.length ≤ bound) : pending.length ≤ bound + 1 := by
  have hNodup : (pending.map fun c => c.unread.length).Nodup :=
    (List.pairwise_map.mpr hStaggered).imp Nat.ne_of_lt
  have hSubset : (pending.map fun c => c.unread.length) ⊆ List.range (bound + 1) := by
    intro length hLength
    obtain ⟨c, hc, rfl⟩ := List.mem_map.mp hLength
    exact List.mem_range.mpr (Nat.lt_succ_of_le (hBound c hc))
  simpa using (List.subperm_of_subset hNodup hSubset).length_le

/-- Nothing that is pending has more of the word left than there was at the start. -/
theorem Turns.unread_le {bound : Nat} (run : p.Turns pending later turns)
    (hBound : ∀ c ∈ pending, c.unread.length ≤ bound) : ∀ c ∈ later, c.unread.length ≤ bound := by
  induction run with
  | zero => exact hBound
  | @succ later c turns prior hRunning hKnown ih =>
      rw [List.forall_mem_cons] at ih
      rw [List.forall_mem_append]
      exact ⟨fun d hd => Nat.le_trans (unread_le_of_mem_children hd) ih.1, ih.2⟩

/-- However many turns a search takes, no two pending configurations are at the same place. -/
theorem Turns.staggered (run : p.Turns pending later turns) (hOne : p.OneMovePerKey)
    (hStaggered : Staggered pending) : Staggered later := by
  induction run with
  | zero => exact hStaggered
  | succ prior hRunning hKnown ih => exact hOne.staggered_children ih

/-- As long as no moves compete, a single configuration is followed by at most one. -/
theorem Turns.length_le_one (run : p.Turns [p.initial word] later turns) (hOne : p.OneMovePerKey)
    (hExplored : ∀ c ∈ p.explored limit word, ¬ p.Competing c) (hTurns : turns ≤ limit) :
    later.length ≤ 1 := by
  induction run with
  | zero => simp
  | @succ later c turns prior hRunning hKnown ih =>
      have hLater : later = [] := by simpa using ih (by omega)
      have hc : ¬ p.Competing c :=
        hExplored c (mem_explored_iff.mpr ⟨turns, later, hTurns, prior⟩)
      simpa [hLater] using hOne.length_children_le_one_iff.mpr hc

/-! Deterministic builds. -/

/-- A search of an automaton that is built as a deterministic one never has two moves of the same kind
to choose from: a configuration is followed by at most one that has read a symbol and at most one
that has read nothing, and by two exactly if such moves compete. The pending configurations are at
different places of the word, so that there are no more of them than places. If no moves compete in
the configurations explored, at most one is pending all along. -/
theorem deterministic_run_branches_only_on_competition {draft : Draft}
    (hBuild : draft.build true = .ok p) (word : Word) (limit : Nat) :
    (∀ c ∈ p.explored limit word, (p.readingSteps c).length ≤ 1 ∧ (p.silentSteps c).length ≤ 1 ∧
      ((p.children c).length ≤ 1 ↔ ¬ p.Competing c)) ∧
    (∀ turns ≤ limit, ∀ pending, p.Turns [p.initial word] pending turns →
      Staggered pending ∧ pending.length ≤ word.length + 1) ∧
    ((∀ c ∈ p.explored limit word, ¬ p.Competing c) →
      ∀ turns ≤ limit, ∀ pending, p.Turns [p.initial word] pending turns → pending.length ≤ 1) := by
  have hOne := oneMovePerKey_of_build hBuild
  refine ⟨?_, ?_, ?_⟩
  · intro c _
    exact ⟨hOne.length_readingSteps_le c, hOne.length_silentSteps_le c,
      hOne.length_children_le_one_iff⟩
  · intro turns _ pending run
    have hStaggered := run.staggered hOne (staggered_of_length_le_one (by simp))
    exact ⟨hStaggered, hStaggered.length_le (run.unread_le (by simp [initial]))⟩
  · intro hExplored turns hTurns pending run
    exact run.length_le_one hOne hExplored hTurns

/-- Puts an item on the stack for each `a` and takes one off for each `b`, until the first item is
left. The last move is the only one of its state that reads nothing, and it needs that item. -/
def balanced : Pda where
  alphabet := Alphabet.ofString "ab"
  stackAlphabet := Alphabet.ofString "Za"
  initialItem := 'Z'
  states := SortedSet.ofList ["push", "pop"]
  start := "push"
  acceptance := .emptyStack
  table := SortedMap.ofList [(("push", some 'a', 'Z'), [⟨"push", ['Z', 'a']⟩]),
    (("push", some 'a', 'a'), [⟨"push", ['a', 'a']⟩]), (("push", some 'b', 'a'), [⟨"pop", []⟩]),
    (("pop", some 'b', 'a'), [⟨"pop", []⟩]), (("pop", none, 'Z'), [⟨"pop", []⟩])]
  deterministic := true
  stepLimit := none

/-- No moves of this automaton compete, and the run on `aabb` keeps to a single configuration. -/
theorem deterministic_run_branches_only_on_competition_balanced :
    balanced.draft.build true = .ok balanced ∧ balanced.runWithLimit 6 ['a', 'a', 'b', 'b'] = .ok true ∧
      ∀ turns ≤ 6, ∀ pending, balanced.Turns [balanced.initial ['a', 'a', 'b', 'b']] pending turns →
        pending.length ≤ 1 := by
  have hBuild : balanced.draft.build true = .ok balanced := by decide
  have hApart : ∀ c, ¬ balanced.Competing c := not_competing_of_table (by decide)
  obtain ⟨_, _, hSingle⟩ :=
    deterministic_run_branches_only_on_competition hBuild ['a', 'a', 'b', 'b'] 6
  exact ⟨hBuild, by decide, hSingle fun c _ => hApart c⟩

/-- Reads a letter, or leaves it, in the same state and with the same item on the stack. -/
def forked : Pda where
  alphabet := Alphabet.ofString "a"
  stackAlphabet := Alphabet.ofString "Z"
  initialItem := 'Z'
  states := SortedSet.ofList ["start", "read", "left"]
  start := "start"
  acceptance := .finalState ∅
  table := SortedMap.ofList [(("start", some 'a', 'Z'), [⟨"read", []⟩]),
    (("start", none, 'Z'), [⟨"left", []⟩])]
  deterministic := true
  stepLimit := none

/-- The search explores where it starts, finds both moves, and has what they lead to pending. -/
theorem forked_branches :
    forked.draft.build true = .ok forked ∧ forked.initial ['a'] ∈ forked.explored 1 ['a'] ∧
      forked.children (forked.initial ['a']) = [⟨"read", [], []⟩, ⟨"left", [], ['a']⟩] ∧
      forked.Turns [forked.initial ['a']] [⟨"read", [], []⟩, ⟨"left", [], ['a']⟩] 1 := by
  have hRunning : forked.accepts (forked.initial ['a']) = false := by decide
  have hKnown : forked.foreign? (forked.initial ['a']) = none := by decide
  have hTurn := (Turns.zero [forked.initial ['a']]).succ hRunning hKnown
  exact ⟨by decide, by decide, by decide, hTurn⟩

end Acceptors.Pda
