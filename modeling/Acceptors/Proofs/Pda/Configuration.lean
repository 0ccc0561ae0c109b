import Acceptors.Proofs.Pda.Description
import Acceptors.Proofs.Pda.Exploration

/-! What a search takes for granted of its configurations, without a check of its own. Descriptions are
checked move by move, so that moves lead from declared states and items to declared states and items
only, and the top of the stack is looked up before a move is applied, so that there is one to
replace. -/
namespace Acceptors.Pda

variable {p : Pda} {c d : Configuration} {word : Word} {pending later : List Configuration}
  {turns : Nat}

/-- A configuration with declared names and items only. It stands at a place of the word, its end at
most, and the symbols before this place are in the alphabet. -/
structure Configuration.WellFormed (p : Pda) (word : Word) (c : Configuration) : Prop where
  state_mem : c.state ∈ p.states
  stack_mem : ∀ item ∈ c.stack, item ∈ p.stackAlphabet
  read_mem : ∃ position ≤ word.length, c.unread = word.drop position ∧
    ∀ a ∈ word.take position, a ∈ p.alphabet

/-- What is unread stands behind some place of the word, and what has been read before it. -/
theorem hasReadKnown_iff_position : p.HasReadKnown word c ↔
    ∃ position ≤ word.length, c.unread = word.drop position ∧
      ∀ a ∈ word.take position, a ∈ p.alphabet := by
  constructor
  · rintro ⟨before, hSplit, hBefore⟩
    refine ⟨before.length, ?_, ?_, ?_⟩
    · rw [hSplit, List.length_append]
      exact Nat.le_add_right _ _
    · rw [hSplit, List.drop_left]
    · rwa [hSplit, List.take_left]
  · rintro ⟨position, _, hUnread, hBefore⟩
    exact ⟨word.take position, by rw [hUnread, List.take_append_drop], hBefore⟩

/-- A move that a lookup finds was checked with the table. -/
theorem WellFormed.move_of_mem_moves (hp : p.WellFormed) {q : String} {symbol : Option Char}
    {top : Char} {move : Move} (hMove : move ∈ p.moves q symbol top) : move.WellFormed p := by
  obtain ⟨moves, hGet, hMem⟩ := mem_moves.mp hMove
  exact hp.move_mem _ _ hGet move hMem

theorem WellFormed.initial (hp : p.WellFormed) (word : Word) :
    (p.initial word).WellFormed p word where
  state_mem := hp.start_mem
  stack_mem := List.forall_mem_singleton.mpr hp.initial_mem
  read_mem := hasReadKnown_iff_position.mp hasReadKnown_initial

/-! Moves. -/

/-- A move needs a stack with the item on top for which it is listed. From the bottom up, it keeps all
items but this last one and puts those of its push behind them. -/
theorem Step.exists_move (step : p.Step c d) :
    0 < c.stack.length ∧ ∃ symbol top move, c.stack.head? = some top ∧
      move ∈ p.moves c.state symbol top ∧ d.state = move.state ∧
      d.stack.reverse = c.stack.reverse.take (c.stack.length - 1) ++ move.push := by
  cases step with
  | @reading q a top below word move hMove =>
      exact ⟨Nat.succ_pos _, some a, top, move, rfl, hMove, rfl, by simp⟩
  | @silent q top below word move hMove =>
      exact ⟨Nat.succ_pos _, none, top, move, rfl, hMove, rfl, by simp⟩

/-- A step stays among declared names, and a symbol that it reads has been looked up before. -/
theorem Configuration.WellFormed.step (hc : c.WellFormed p word) (hp : p.WellFormed)
    (hKnown : p.foreign? c = none) (step : p.Step c d) : d.WellFormed p word := by
  obtain ⟨_, symbol, top, move, _, hMove, hState, hStack⟩ := step.exists_move
  have hWellFormed := hp.move_of_mem_moves hMove
  refine ⟨hState ▸ hWellFormed.state_mem, ?_, ?_⟩
  · intro item hItem
    -- An item has been on the stack before, or it is pushed by a move of the description.
    rw [← List.mem_reverse, hStack, List.mem_append] at hItem
    rcases hItem with hBelow | hPush
    · exact hc.stack_mem item (List.mem_reverse.mp (List.mem_of_mem_take hBelow))
    · exact hWellFormed.push_mem item hPush
  · have hRead := hasReadKnown_iff_position.mpr hc.read_mem
    exact hasReadKnown_iff_position.mp (hRead.step hKnown step)

/-- A turn of a search leaves only well-formed configurations pending. -/
theorem Turns.wellFormed (run : p.Turns pending later turns) (hp : p.WellFormed)
    (hPending : ∀ c ∈ pending, c.WellFormed p word) : ∀ c ∈ later, c.WellFormed p word := by
  induction run with
  | zero => exact hPending
  | succ prior hRunning hKnown ih =>
      rw [List.forall_mem_cons] at ih
      refine List.forall_mem_append.mpr ⟨fun d hd => ?_, ih.2⟩
      exact ih.1.step hp hKnown (mem_children_iff.mp hd)

/-- All configurations that the search of a built automaton ever has pending are well formed, after any
number of turns and so under every limit and without one. To those that a run explores, a move is
applied only if the stack is not empty: the item on top is the one that it is listed for, and the
others stay below the items of its push. -/
theorem pending_wellFormed {draft : Draft} {deterministic : Bool}
    (hBuild : draft.build deterministic = .ok p) (word : Word) :
    (∀ turns pending, p.Turns [p.initial word] pending turns →
      ∀ c ∈ pending, c.WellFormed p word) ∧
    ∀ limit, ∀ c ∈ p.explored limit word, c.WellFormed p word ∧ ∀ d ∈ p.children c,
      0 < c.stack.length ∧ ∃ symbol top move, c.stack.head? = some top ∧
        move ∈ p.moves c.state symbol top ∧ d.state = move.state ∧
        d.stack.reverse = c.stack.reverse.take (c.stack.length - 1) ++ move.push := by
  obtain ⟨_, _, hp⟩ := Draft.of_build hBuild
  have hPending : ∀ turns pending, p.Turns [p.initial word] pending turns →
      ∀ c ∈ pending, c.WellFormed p word := fun turns pending run =>
    run.wellFormed hp (List.forall_mem_singleton.mpr (hp.initial word))
  refine ⟨hPending, ?_⟩
  intro limit c hExplored
  obtain ⟨turns, later, _, run⟩ := mem_explored_iff.mp hExplored
  exact ⟨hPending _ _ run c List.mem_cons_self, fun d hd => (mem_children_iff.mp hd).exists_move⟩

/-- After one turn on `abba`, the search has read `a` in one branch and guessed the middle in another. It
ends where nothing is left on the stack. -/
theorem pending_wellFormed_mirrored :
    mirrored.draft.build false = .ok mirrored ∧
      Configuration.WellFormed mirrored ['a', 'b', 'b', 'a'] ⟨"front", ['a', 'Z'], ['b', 'b', 'a']⟩ ∧
      Configuration.WellFormed mirrored ['a', 'b', 'b', 'a'] ⟨"back", ['Z'], ['a', 'b', 'b', 'a']⟩ ∧
      Configuration.WellFormed mirrored ['a', 'b', 'b', 'a'] ⟨"back", [], []⟩ := by
  have hBuild : mirrored.draft.build false = .ok mirrored := by decide
  have hRunning : mirrored.accepts (mirrored.initial ['a', 'b', 'b', 'a']) = false := by decide
  have hKnown : mirrored.foreign? (mirrored.initial ['a', 'b', 'b', 'a']) = none := by decide
  have hTurn := (Turns.zero [mirrored.initial ['a', 'b', 'b', 'a']]).succ hRunning hKnown
  obtain ⟨hPending, hExplored⟩ := pending_wellFormed hBuild ['a', 'b', 'b', 'a']
  exact ⟨hBuild, hPending _ _ hTurn _ (by decide), hPending _ _ hTurn _ (by decide),
    (hExplored 11 _ (by decide)).1⟩

end Acceptors.Pda
