import Acceptors.Proofs.Pda.Exploration

/-! Searches that end by themselves. A search ends if no endless sequence of moves starts from a
pending configuration, however many configurations are pending beside it. None does where a move
that reads nothing only takes an item off the stack: every move then leaves less of the word, or as
much of the word and less of the stack. -/
namespace Acceptors.Pda

variable {p : Pda} {c d : Configuration} {word : Word} {front pending : List Configuration}

/-- A search of pending configurations finds an answer, after however many of them. -/
def Ends (p : Pda) (word : Word) (pending : List Configuration) : Prop :=
  ∃ budget answer, p.search word budget pending = some answer

/-- The search ends at a configuration, or goes on with what its moves lead to. -/
theorem ends_cons_of_children (hChildren : p.Ends word (p.children c ++ pending)) :
    p.Ends word (c :: pending) := by
  by_cases hAccepts : p.accepts c = true
  · exact ⟨1, .ok true, by rw [search, if_pos hAccepts]⟩
  · cases hForeign : p.foreign? c with
    | some a => exact ⟨1, .error (.symbolNotInAlphabet a), by simp [search, hAccepts, hForeign]⟩
    | none =>
        obtain ⟨budget, answer, hSearch⟩ := hChildren
        exact ⟨budget + 1, answer, by simp [search, hAccepts, hForeign, hSearch]⟩

/-- Configurations that never keep a search from its end do not do so together. -/
theorem ends_append (hFront : ∀ c ∈ front, ∀ pending, p.Ends word pending → p.Ends word (c :: pending))
    (hPending : p.Ends word pending) : p.Ends word (front ++ pending) := by
  induction front with
  | nil => exact hPending
  | cons c front ih =>
      rw [List.forall_mem_cons] at hFront
      exact hFront.1 _ (ih hFront.2)

/-- No endless sequence of moves starts from a configuration. -/
abbrev Terminates (p : Pda) (c : Configuration) : Prop := Acc (fun d c => p.Step c d) c

/-- What is pending behind a configuration without endless sequences of moves is explored in the
end. -/
theorem Terminates.ends_cons (hc : p.Terminates c) (hPending : p.Ends word pending) :
    p.Ends word (c :: pending) := by
  induction hc generalizing pending with
  | intro c _ ih =>
      apply ends_cons_of_children
      apply ends_append _ hPending
      intro d hChild pending hPending
      exact ih d (mem_children_iff.mp hChild) hPending

theorem Terminates.ends (hc : p.Terminates (p.initial word)) : p.Ends word [p.initial word] :=
  hc.ends_cons ⟨0, p.alphabet.reject word, by rw [search]⟩

/-- A search that ends explores no more configurations than some number, under every limit. -/
theorem Ends.exists_length_explore_le (hEnds : p.Ends word pending) :
    ∃ enough answer, p.search word enough pending = some answer ∧
      ∀ budget, (p.explore word budget pending).1.length ≤ enough := by
  obtain ⟨enough, answer, hSearch⟩ := hEnds
  refine ⟨enough, answer, hSearch, ?_⟩
  intro budget
  rcases Nat.le_total budget enough with hLess | hMore
  · exact Nat.le_trans length_explore_le hLess
  · rw [explore_mono hSearch hMore]
    exact length_explore_le

/-! Moves that read nothing. -/

def SilentMovesPop (p : Pda) : Prop :=
  ∀ state top, ∀ move ∈ p.moves state none top, move.push = []

def Configuration.remaining (c : Configuration) : Nat × Nat := (c.unread.length, c.stack.length)

theorem silentMovesPop_iff : p.SilentMovesPop ↔
    ∀ entry ∈ p.table.entries, entry.1.2.1 = none → ∀ move ∈ entry.2, move.push = [] := by
  simp only [SilentMovesPop, mem_moves]
  constructor
  · rintro hPops ⟨⟨state, symbol, top⟩, moves⟩ hEntry rfl move hMove
    exact hPops state top move ⟨moves, SortedMap.mem_entries_iff.mp hEntry, hMove⟩
  · rintro hEntries state top move ⟨moves, hGet, hMove⟩
    exact hEntries _ (SortedMap.mem_entries_iff.mpr hGet) rfl move hMove

/-- Either the word gets shorter, whatever is pushed, or the stack does. -/
theorem SilentMovesPop.remaining_lt (hPops : p.SilentMovesPop) (step : p.Step c d) :
    Prod.Lex (· < ·) (· < ·) d.remaining c.remaining := by
  cases step with
  | reading hMove => exact .left _ _ (Nat.lt_succ_self _)
  | silent hMove =>
      rw [hPops _ _ _ hMove]
      exact .right _ (Nat.lt_succ_self _)

/-- Every move leaves less of the word or, where it reads nothing, less of the stack. -/
theorem SilentMovesPop.terminates (hPops : p.SilentMovesPop) (c : Configuration) :
    p.Terminates c := by
  have hLess : WellFounded (Prod.Lex (· < ·) (· < ·) : Nat × Nat → Nat × Nat → Prop) :=
    (Prod.lex Nat.lt_wfRel Nat.lt_wfRel).wf
  exact Subrelation.accessible hPops.remaining_lt (InvImage.accessible _ (hLess.apply c.remaining))

/-- If a move that reads nothing never pushes, or if there is no such move, then the run without a
limit ends on every word: it explores finitely many configurations, and a limit of as many is not
exceeded. -/
theorem ends_of_silentMovesPop (p : Pda) (hPops : p.SilentMovesPop) (word : Word) :
    ∃ enough, p.EndsWith word (p.runWithLimit enough word) ∧
      (∀ bound, p.runWithLimit enough word ≠ .error (.stepLimitExceeded bound)) ∧
      ∀ limit, (p.explored limit word).length ≤ enough := by
  have hEnds := (hPops.terminates (p.initial word)).ends
  obtain ⟨enough, answer, hSearch, hLength⟩ := hEnds.exists_length_explore_le
  have hAnswer : p.runWithLimit enough word = answer := runWithLimit_of_answerWithin hSearch
  refine ⟨enough, ?_, ?_, hLength⟩
  · rw [hAnswer]
    exact ⟨enough, hSearch⟩
  · intro bound hExceeded
    rw [hAnswer] at hExceeded
    rw [hExceeded] at hSearch
    exact search_ne_stepLimitExceeded bound hSearch

/-- Reads a letter with two or three items in place of one, and takes items off as it likes. No
state accepts, so that all of the search tree is explored. -/
def swelling : Pda where
  alphabet := Alphabet.ofString "a"
  stackAlphabet := Alphabet.ofString "X"
  initialItem := 'X'
  states := SortedSet.ofList ["q"]
  start := "q"
  acceptance := .finalState ∅
  table := SortedMap.ofList [(("q", some 'a', 'X'), [⟨"q", ['X', 'X']⟩, ⟨"q", ['X', 'X', 'X']⟩]),
    (("q", none, 'X'), [⟨"q", []⟩])]
  deterministic := false
  stepLimit := none

/-- Two letters leave as many as five items. There are 52 configurations to explore. -/
theorem ends_of_silentMovesPop_swelling :
    swelling.SilentMovesPop ∧ swelling.runWithLimit 52 ['a', 'a'] = .ok false ∧
      ∃ enough, swelling.EndsWith ['a', 'a'] (swelling.runWithLimit enough ['a', 'a']) ∧
        ∀ limit, (swelling.explored limit ['a', 'a']).length ≤ enough := by
  have hPops : swelling.SilentMovesPop := silentMovesPop_iff.mpr (by decide)
  obtain ⟨enough, hEnds, _, hLength⟩ := ends_of_silentMovesPop swelling hPops ['a', 'a']
  exact ⟨hPops, by decide, enough, hEnds, hLength⟩

end Acceptors.Pda
