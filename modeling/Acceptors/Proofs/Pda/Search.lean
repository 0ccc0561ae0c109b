import Acceptors.Pda.Search
import Acceptors.Proofs.Alphabet
import Mathlib.Data.List.Basic
import Mathlib.Logic.Relation

/-! The verdicts of pushdown automata. A search that ends with a verdict has found an accepting
configuration, or has explored all that moves lead to and found none. -/
namespace Acceptors.Pda

variable {p : Pda} {c d : Configuration} {word : Word} {pending : List Configuration}

theorem mem_moves {q : String} {symbol : Option Char} {top : Char} {move : Move} :
    move ∈ p.moves q symbol top ↔
      ∃ moves, p.table.get? (q, symbol, top) = some moves ∧ move ∈ moves := by
  rw [moves]
  cases p.table.get? (q, symbol, top) <;> simp

/-- One move. It is listed for the item on top of the stack, which it replaces so that the last
item of its push is on top, and it reads the next symbol or reads nothing. What is left of the
word tells how far it has been read. -/
inductive Step (p : Pda) : Configuration → Configuration → Prop where
  | reading {q : String} {a top : Char} {below : List Char} {word : Word} {move : Move}
      (hMove : move ∈ p.moves q (some a) top) :
      Step p ⟨q, top :: below, a :: word⟩ ⟨move.state, move.push.reverse ++ below, word⟩
  | silent {q : String} {top : Char} {below : List Char} {word : Word} {move : Move}
      (hMove : move ∈ p.moves q none top) :
      Step p ⟨q, top :: below, word⟩ ⟨move.state, move.push.reverse ++ below, word⟩

abbrev Reaches (p : Pda) : Configuration → Configuration → Prop := Relation.ReflTransGen p.Step

/-- The input is read, and the state is an accept state or, for acceptance by empty stack, nothing
is left on the stack. -/
def Accepting (p : Pda) (c : Configuration) : Prop :=
  c.unread = [] ∧
    match p.acceptance with
    | .finalState accept => c.state ∈ accept
    | .emptyStack => c.stack = []

/-- What a search looks for can be decided at each configuration. -/
theorem accepts_iff : p.accepts c = true ↔ p.Accepting c := by
  rw [accepts, Accepting, Bool.and_eq_true, List.isEmpty_iff]
  cases p.acceptance with
  | finalState accept => simp
  | emptyStack => simp

/-- The configurations that a search explores next are those that one move leads to. -/
theorem mem_children_iff : d ∈ p.children c ↔ p.Step c d := by
  constructor
  · intro hChild
    obtain ⟨q, stack, unread⟩ := c
    rcases List.mem_append.mp hChild with hReading | hSilent
    · cases stack with
      | nil => cases hReading
      | cons top below =>
          cases unread with
          | nil => cases hReading
          | cons a word =>
              obtain ⟨move, hMove, rfl⟩ := List.mem_map.mp hReading
              exact .reading hMove
    · cases stack with
      | nil => cases hSilent
      | cons top below =>
          obtain ⟨move, hMove, rfl⟩ := List.mem_map.mp hSilent
          exact .silent hMove
  · intro step
    cases step with
    | reading hMove => exact List.mem_append.mpr (Or.inl (List.mem_map.mpr ⟨_, hMove, rfl⟩))
    | silent hMove => exact List.mem_append.mpr (Or.inr (List.mem_map.mpr ⟨_, hMove, rfl⟩))

def Succeeds (p : Pda) (c : Configuration) : Prop := ∃ d, p.Reaches c d ∧ p.Accepting d

/-- A configuration succeeds if it accepts, or if one that is explored next succeeds. -/
theorem succeeds_iff : p.Succeeds c ↔ p.Accepting c ∨ ∃ d ∈ p.children c, p.Succeeds d := by
  simp only [mem_children_iff]
  constructor
  · intro hSucceeds
    obtain ⟨d, hReach, hAccepting⟩ := hSucceeds
    rcases hReach.cases_head with rfl | ⟨next, step, hRest⟩
    · exact Or.inl hAccepting
    · exact Or.inr ⟨next, step, d, hRest, hAccepting⟩
  · intro hEither
    rcases hEither with hAccepting | ⟨next, step, d, hRest, hAccepting⟩
    · exact ⟨c, .refl, hAccepting⟩
    · exact ⟨d, hRest.head step, hAccepting⟩

theorem verdict_of_reject {alphabet : Alphabet} {verdict : Bool}
    (hReject : alphabet.reject word = .ok verdict) : verdict = false := by
  rw [Alphabet.reject_eq_answer, Alphabet.answer_eq_ok_iff] at hReject
  exact hReject.2.symm

/-- The verdict of a search tells whether a pending configuration succeeds. A configuration that
does not accept is replaced by those that one move leads to, so that no success is lost. -/
theorem search_verdict_iff {budget : Nat} {verdict : Bool}
    (hSearch : p.search word budget pending = some (.ok verdict)) :
    verdict = true ↔ ∃ c ∈ pending, p.Succeeds c := by
  fun_induction p.search word budget pending with
  | case1 => simp [verdict_of_reject (Option.some.inj hSearch)]
  | case2 => cases hSearch
  | case3 budget c pending hAccepts =>
      cases hSearch
      have hSucceeds : p.Succeeds c := succeeds_iff.mpr (Or.inl (accepts_iff.mp hAccepts))
      exact iff_of_true rfl ⟨c, List.mem_cons_self, hSucceeds⟩
  | case4 => cases hSearch
  | case5 budget c pending hAccepts hForeign ih =>
      rw [List.exists_mem_cons_iff, succeeds_iff, ← accepts_iff, ih hSearch, or_iff_right hAccepts]
      simp only [List.mem_append, or_and_right, exists_or]

/-- A run that gives a verdict was not cut short. -/
theorem answerWithin_of_runWith {budget : Nat} {limit : Option Nat} {verdict : Bool}
    (hAnswer : p.runWith budget limit word = some (.ok verdict)) :
    ∃ enough, p.answerWithin enough word = some (.ok verdict) := by
  cases limit with
  | none => exact ⟨budget, hAnswer⟩
  | some limit =>
      rw [runWith, runWithLimit] at hAnswer
      refine ⟨limit, ?_⟩
      cases hFound : p.answerWithin limit word with
      | none =>
          rw [hFound] at hAnswer
          cases hAnswer
      | some answer =>
          rw [hFound] at hAnswer
          exact hAnswer

/-- Under every limit and without one, a verdict tells whether moves lead from the start to an
accepting configuration. -/
theorem verdict_iff_accepting_reachable (p : Pda) (word : Word) (budget : Nat)
    (limit : Option Nat) (verdict : Bool)
    (hAnswer : p.runWith budget limit word = some (.ok verdict)) :
    verdict = true ↔ ∃ c, p.Reaches (p.initial word) c ∧ p.Accepting c := by
  obtain ⟨enough, hSearch⟩ := answerWithin_of_runWith hAnswer
  rw [search_verdict_iff hSearch]
  simp [Succeeds]

/-- Puts symbols on the stack up to a guessed middle, and takes them off in reverse from there. -/
def mirrored : Pda where
  alphabet := Alphabet.ofString "ab"
  stackAlphabet := Alphabet.ofString "Zab"
  initialItem := 'Z'
  states := SortedSet.ofList ["front", "back"]
  start := "front"
  acceptance := .emptyStack
  table := SortedMap.ofList (
    (['Z', 'a', 'b'].flatMap fun top => [(("front", some 'a', top), [⟨"front", [top, 'a']⟩]),
      (("front", some 'b', top), [⟨"front", [top, 'b']⟩]),
      (("front", none, top), [⟨"back", [top]⟩])]) ++
    [(("back", some 'a', 'a'), [⟨"back", []⟩]), (("back", some 'b', 'b'), [⟨"back", []⟩]),
      (("back", none, 'Z'), [⟨"back", []⟩])])
  deterministic := false
  stepLimit := none

/-- One guess of the middle succeeds for the first word, and none does for the second. -/
theorem verdict_iff_accepting_reachable_mirrored :
    (∃ c, mirrored.Reaches (mirrored.initial ['a', 'b', 'b', 'a']) c ∧ mirrored.Accepting c) ∧
      ¬ ∃ c, mirrored.Reaches (mirrored.initial ['a', 'b', 'a', 'b']) c ∧
        mirrored.Accepting c := by
  have hFound : mirrored.runWith 0 (some 20) ['a', 'b', 'b', 'a'] = some (.ok true) := by decide
  have hNone : mirrored.runWith 20 none ['a', 'b', 'a', 'b'] = some (.ok false) := by decide
  constructor
  · exact (verdict_iff_accepting_reachable mirrored _ _ _ _ hFound).mp rfl
  · intro hReached
    exact Bool.false_ne_true ((verdict_iff_accepting_reachable mirrored _ _ _ _ hNone).mpr hReached)

end Acceptors.Pda
