import Acceptors.Proofs.Pda.Description
import Acceptors.Proofs.Pda.Exploration
import Acceptors.Proofs.SearchTree

/-! The order of a search. The pending configurations are a row of search trees of which nothing has
been explored. To take off the first root and to put what its moves lead to in its place is to go on
in preorder, so that the search backtracks as a recursive search of the tree would. -/
namespace Acceptors.Pda

open SearchTree

variable {p : Pda} {c : Configuration} {word : Word} {pending explored : List Configuration}
  {budget limit : Nat} {lookup rest : Place → Option Configuration} {first : Place}
  {move : Place → Place} {places : List Place}

/-- The nodes that a lookup finds, explored in preorder: up to the first that accepts, to the last
node or to the limit, whichever comes first. -/
structure Explores (p : Pda) (limit : Nat) (lookup : Place → Option Configuration)
    (places : List Place) (explored : List Configuration) : Prop where
  lists : Lists lookup places explored
  length_le : explored.length ≤ limit
  not_accepting : ∀ c ∈ explored.dropLast, ¬ p.Accepting c
  stops : (∃ c ∈ explored.getLast?, p.Accepting c) ∨ explored.length = limit ∨
    ∀ place, (lookup place).isSome → place ∈ places

theorem explores_zero (p : Pda) (lookup : Place → Option Configuration) :
    p.Explores 0 lookup [] [] where
  lists := lists_nil lookup
  length_le := Nat.le_refl 0
  not_accepting := List.forall_mem_nil _
  stops := Or.inr (Or.inl rfl)

namespace Explores

theorem of_accepting (hUnfolds : Unfolds lookup first c move rest) (hAccepting : p.Accepting c)
    (limit : Nat) : p.Explores (limit + 1) lookup [first] [c] where
  lists := hUnfolds.lists (lists_nil rest)
  length_le := Nat.succ_le_succ (Nat.zero_le limit)
  not_accepting := List.forall_mem_nil _
  stops := Or.inl ⟨c, rfl, hAccepting⟩

/-- A node that does not accept is explored before the remaining ones. -/
theorem cons (hRest : p.Explores limit rest places explored)
    (hUnfolds : Unfolds lookup first c move rest) (hAccepting : ¬ p.Accepting c) :
    p.Explores (limit + 1) lookup (first :: places.map move) (c :: explored) where
  lists := hUnfolds.lists hRest.lists
  length_le := Nat.succ_le_succ hRest.length_le
  not_accepting := by
    cases explored with
    | nil => exact List.forall_mem_nil _
    | cons d explored => exact List.forall_mem_cons.mpr ⟨hAccepting, hRest.not_accepting⟩
  stops := by
    rcases hRest.stops with ⟨d, hLast, hd⟩ | hLimit | hAll
    · refine Or.inl ⟨d, ?_, hd⟩
      rw [List.getLast?_cons, hLast]
      rfl
    · exact Or.inr (Or.inl (congrArg Nat.succ hLimit))
    · exact Or.inr (Or.inr (hUnfolds.complete hAll))

end Explores

/-- While a word over the alphabet is read, no symbol is foreign. -/
theorem HasReadKnown.foreign?_eq_none (hRead : p.HasReadKnown word c)
    (hWord : ∀ a ∈ word, a ∈ p.alphabet) : p.foreign? c = none := by
  rw [Option.eq_none_iff_forall_ne_some]
  intro a hForeign
  obtain ⟨b, hb, hNot⟩ := Alphabet.exists_firstForeign_iff.mp ⟨a, hRead.firstForeign hForeign⟩
  exact hNot (hWord b hb)

/-- One step: however the first pending configuration comes before the others, it is explored before
what is explored in its place. -/
theorem exists_explores_cons (hForeign : p.foreign? c = none)
    (hUnfolds : Unfolds lookup first c move (nodeIn? p.children (p.children c ++ pending)))
    (hRest : ∃ places, p.Explores budget (nodeIn? p.children (p.children c ++ pending)) places
      (p.explore word budget (p.children c ++ pending)).1) :
    ∃ places, p.Explores (budget + 1) lookup places
      (p.explore word (budget + 1) (c :: pending)).1 := by
  rw [explore]
  by_cases hAccepts : p.accepts c = true
  · rw [if_pos hAccepts]
    exact ⟨[first], .of_accepting hUnfolds (accepts_iff.mp hAccepts) budget⟩
  · rw [if_neg hAccepts, hForeign]
    obtain ⟨places, hRest⟩ := hRest
    rw [accepts_iff] at hAccepts
    exact ⟨_, hRest.cons hUnfolds hAccepts⟩

/-- The run: the pending configurations are explored like the trees that grow from them. -/
theorem exists_explores (hWord : ∀ a ∈ word, a ∈ p.alphabet)
    (hPending : ∀ c ∈ pending, p.HasReadKnown word c) (budget : Nat) :
    ∃ places, p.Explores budget (nodeIn? p.children pending) places
      (p.explore word budget pending).1 := by
  induction budget generalizing pending with
  | zero =>
      refine ⟨[], ?_⟩
      cases pending <;> exact explores_zero p _
  | succ budget ih =>
      cases pending with
      | nil =>
          refine ⟨[], lists_nil _, Nat.zero_le _, List.forall_mem_nil _, Or.inr (Or.inr ?_)⟩
          intro place hPlace
          cases place <;> cases hPlace
      | cons c pending =>
          rw [List.forall_mem_cons] at hPending
          have hForeign := hPending.1.foreign?_eq_none hWord
          apply exists_explores_cons hForeign (unfolds_row c pending)
          apply ih
          rw [List.forall_mem_append]
          refine ⟨fun d hChild => ?_, hPending.2⟩
          exact hPending.1.step hForeign (mem_children_iff.mp hChild)

/-- A run under a limit explores the tree of its first configuration in preorder. -/
theorem exists_explores_initial (hWord : ∀ a ∈ word, a ∈ p.alphabet) (limit : Nat) :
    ∃ places, p.Explores limit (node? p.children (p.initial word)) places
      (p.explored limit word) := by
  cases limit with
  | zero => exact ⟨[], explores_zero p _⟩
  | succ limit =>
      have hRead : p.HasReadKnown word (p.initial word) := hasReadKnown_initial
      have hForeign := hRead.foreign?_eq_none hWord
      have hTree : Unfolds (node? p.children (p.initial word)) [] (p.initial word) id
          (nodeIn? p.children (p.children (p.initial word) ++ [])) := by
        rw [List.append_nil]
        exact unfolds_tree _
      apply exists_explores_cons hForeign hTree
      apply exists_explores hWord
      intro d hChild
      rw [List.append_nil] at hChild
      exact hRead.step hForeign (mem_children_iff.mp hChild)

/-- The configurations that a search for a word over the alphabet explores, in order, are those of
the search tree in preorder, up to the first that accepts, to the end of the tree or to the limit.
The branches of a configuration are what moves lead to, those that read a symbol before those that
read nothing, and in both groups as the moves of the key were first given. -/
theorem explored_in_preorder (p : Pda) (word : Word) (hWord : ∀ a ∈ word, a ∈ p.alphabet)
    (limit : Nat) :
    (p.explore word limit [p.initial word]).2 = p.answerWithin limit word ∧
      (∃ places, p.Explores limit (node? p.children (p.initial word)) places
        (p.explored limit word)) ∧
      ∀ edits deterministic, (Draft.ofEdits edits).build deterministic = .ok p →
        ∀ state symbol pop, p.moves state symbol pop =
          Discovery.distinct (edits.filterMap (Edit.moveFor? (state, symbol, pop))) :=
  ⟨explore_snd, exists_explores_initial hWord limit, fun _ _ hBuild => moves_of_build hBuild⟩

/-- Grows its stack as long as it likes before it reads. One of the moves is given twice. -/
def growingEdits : List Edit :=
  [.alphabet (Alphabet.ofString "a"), .stackAlphabet (Alphabet.ofString "Z"), .initialItem 'Z',
    .states ["grow", "read"], .start "grow", .accept ["read"], .stepLimit none,
    .transition ("grow", none, 'Z') ⟨"grow", ['Z', 'Z']⟩,
    .transition ("grow", some 'a', 'Z') ⟨"read", []⟩,
    .transition ("grow", none, 'Z') ⟨"read", ['Z']⟩,
    .transition ("grow", none, 'Z') ⟨"grow", ['Z', 'Z']⟩]

def growing : Pda where
  alphabet := Alphabet.ofString "a"
  stackAlphabet := Alphabet.ofString "Z"
  initialItem := 'Z'
  states := SortedSet.ofList ["grow", "read"]
  start := "grow"
  acceptance := .finalState (SortedSet.ofList ["read"])
  table := SortedMap.ofList [(("grow", none, 'Z'), [⟨"grow", ['Z', 'Z']⟩, ⟨"read", ['Z']⟩]),
    (("grow", some 'a', 'Z'), [⟨"read", []⟩])]
  deterministic := false
  stepLimit := none

/-- The move that reads is given second and tried first, and leads to a dead end. Then the search goes
down the branch without an end, and never comes to the one beside it. -/
theorem explored_in_preorder_growing :
    (Draft.ofEdits growingEdits).build false = .ok growing ∧
      growing.explored 4 ['a', 'a'] = [⟨"grow", ['Z'], ['a', 'a']⟩, ⟨"read", [], ['a']⟩,
        ⟨"grow", ['Z', 'Z'], ['a', 'a']⟩, ⟨"read", ['Z'], ['a']⟩] ∧
      (∃ places, growing.Explores 4 (node? growing.children (growing.initial ['a', 'a'])) places
        (growing.explored 4 ['a', 'a'])) ∧
      growing.moves "grow" none 'Z' = [⟨"grow", ['Z', 'Z']⟩, ⟨"read", ['Z']⟩] := by
  have hBuild : (Draft.ofEdits growingEdits).build false = .ok growing := rfl
  have hWord : ∀ a ∈ ['a', 'a'], a ∈ growing.alphabet :=
    Alphabet.firstForeign?_eq_none_iff.mp (by decide)
  obtain ⟨_, hExplores, hMoves⟩ := explored_in_preorder growing ['a', 'a'] hWord 4
  refine ⟨hBuild, by decide, hExplores, ?_⟩
  rw [hMoves growingEdits false hBuild]
  rfl

end Acceptors.Pda
