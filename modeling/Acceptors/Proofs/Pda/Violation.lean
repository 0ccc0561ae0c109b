import Acceptors.Proofs.Pda.Description
import Mathlib.Data.List.Lex

/-! What edits violate when they describe a pushdown automaton, and in which order it is checked.
Neither mentions a table or a list of faults: both are said by the edits that were given. -/
namespace Acceptors.Pda

variable {edits : List Edit} {deterministic : Bool} {fault other : ValidationError}

/-! The checks and their order. -/

/-- What is checked of a key and its moves. Moves are numbered in the order in which they were
given, repetitions included, and items in the order in which a move lists them. -/
inductive KeyCheck where
  | source
  | symbol
  | popped
  | target (index : Nat)
  | pushed (index place : Nat)
  | ambiguity

namespace KeyCheck

/-- Checks of different kinds have an order of their own, but that a move is checked as a whole. -/
def stage : KeyCheck → Nat
  | source => 0
  | symbol => 1
  | popped => 2
  | target _ => 3
  | pushed _ _ => 3
  | ambiguity => 4

/-- Where a check stands among those of a key. The items of a move come between its target and the
next move. -/
def rank : KeyCheck → List Nat
  | target index => [3, index]
  | pushed index place => [3, index, place]
  | check => [check.stage]

def Before (c d : KeyCheck) : Prop := c.rank < d.rank

theorem not_before_self (c : KeyCheck) : ¬ c.Before c := lt_irrefl c.rank

theorem not_before_of_stage_lt (c d : KeyCheck) (hStage : c.stage < d.stage) : ¬ d.Before c := by
  cases c <;> cases d <;> simp_all [stage, Before, rank, List.cons_lt_cons_iff]

def index? : KeyCheck → Option Nat
  | target index => some index
  | pushed index _ => some index
  | _ => none

/-- The checks of moves are the only ones that have the number of a move. -/
theorem stage_eq_three_iff {c : KeyCheck} : c.stage = 3 ↔ ∃ index, c.index? = some index := by
  cases c <;> simp [stage, index?]

/-- All of a move is checked before the next move. -/
theorem not_before_of_index_lt {c d : KeyCheck} {i j : Nat} (hLess : i < j)
    (hc : c.index? = some i) (hd : d.index? = some j) : ¬ d.Before c := by
  intro hBefore
  cases c <;> cases d <;> simp_all [index?, Before, rank, List.cons_lt_cons_iff] <;> omega

/-- The target of a move is checked before the items that it pushes. -/
theorem not_pushed_before_target {index place : Nat} :
    ¬ (pushed index place).Before (target index) := by
  simp [Before, rank]

/-- The items of a move are checked in the order in which it lists them. -/
theorem pushed_before_pushed_iff {index i j : Nat} :
    (pushed index i).Before (pushed index j) ↔ i < j := by
  simp [Before, rank, List.cons_lt_cons_iff]

/-- Of two different checks of a key, one is made before the other. -/
theorem connected (c d : KeyCheck) : c.Before d ∨ c = d ∨ d.Before c := by
  have hInjective : c.rank = d.rank → c = d := by
    cases c <;> cases d <;> simp [rank, stage]
  exact (lt_trichotomy c.rank d.rank).imp_right (Or.imp_left hInjective)

end KeyCheck

inductive Check where
  | part (part : Part)
  | start
  | initialItem
  | accept (state : String)
  | entry (key : Key) (check : KeyCheck)

namespace Check

def stage : Check → Nat
  | part _ => 0
  | start => 1
  | initialItem => 2
  | accept _ => 3
  | entry _ _ => 4

/-- Whether a check is made before another. Accept states are checked in ascending order, and so are
keys: by state, then by symbol with no symbol first, then by stack top. -/
def Before : Check → Check → Prop
  | part a, part b => a.position < b.position
  | accept q, accept r => KeyOrder.before q r = true
  | entry k c, entry l d => KeyOrder.before k l = true ∨ k = l ∧ c.Before d
  | c, d => c.stage < d.stage

theorem not_before_self (c : Check) : ¬ c.Before c := by
  cases c <;> simp [Before, stage, KeyOrder.before_irrefl, KeyCheck.not_before_self]

theorem before_of_stage_lt (c d : Check) (hStage : c.stage < d.stage) : c.Before d := by
  cases c <;> cases d <;> simp_all [Before, stage]

theorem not_before_of_stage_lt (c d : Check) (hStage : c.stage < d.stage) : ¬ d.Before c := by
  cases c <;> cases d <;> simp_all [Before, stage]

theorem entry_before_entry_iff {key : Key} {c d : KeyCheck} :
    (entry key c).Before (entry key d) ↔ c.Before d := by
  simp [Before, KeyOrder.before_irrefl]

/-- No check of a later key is made before one of an earlier key. -/
theorem not_before_of_key_before {k l : Key} (hBefore : KeyOrder.before k l = true)
    (c d : KeyCheck) : ¬ (entry l d).Before (entry k c) := by
  rintro (hBack | ⟨rfl, _⟩)
  · exact KeyOrder.ne_of_before (KeyOrder.before_trans hBefore hBack) rfl
  · exact KeyOrder.ne_of_before hBefore rfl

/-- Of two different checks, one is made before the other. -/
theorem connected (c d : Check) : c.Before d ∨ c = d ∨ d.Before c := by
  rcases Nat.lt_trichotomy c.stage d.stage with hLess | hSame | hMore
  · exact Or.inl (before_of_stage_lt c d hLess)
  · cases c <;> cases d <;> try cases hSame
    -- Left are two checks of one kind: parts, start, initial item, accept states and keys.
    · next a b =>
        have hOrder := Nat.lt_trichotomy a.position b.position
        exact hOrder.imp_right (Or.imp_left fun hEq => congrArg part (Part.position_injective hEq))
    · exact Or.inr (Or.inl rfl)
    · exact Or.inr (Or.inl rfl)
    · next q r => exact (KeyOrder.before_trichotomy q r).imp_right (Or.imp_left (congrArg accept))
    · next k c l d =>
        rcases KeyOrder.before_trichotomy k l with hBefore | rfl | hAfter
        · exact Or.inl (Or.inl hBefore)
        · simp only [entry_before_entry_iff, entry.injEq, true_and]
          exact c.connected d
        · exact Or.inr (Or.inr (Or.inl hAfter))
  · exact Or.inr (Or.inr (before_of_stage_lt d c hMore))

end Check

/-! Violations. -/

/-- The violations in what edits give for a key. -/
inductive KeyViolation (edits : List Edit) (deterministic : Bool) (key : Key) :
    KeyCheck → ValidationError → Prop where
  | source {states : SortedSet String} {move : Move} (hMove : .transition key move ∈ edits)
      (hStates : given Edit.states? edits = some states) (hNot : key.1 ∉ states) :
      KeyViolation edits deterministic key .source (.unknownState key.1)
  | symbol {alphabet : Alphabet} {a : Char} {move : Move} (hMove : .transition key move ∈ edits)
      (hAlphabet : given Edit.alphabet? edits = some alphabet) (ha : key.2.1 = some a)
      (hNot : a ∉ alphabet) : KeyViolation edits deterministic key .symbol (.unknownSymbol a)
  | popped {items : Alphabet} {move : Move} (hMove : .transition key move ∈ edits)
      (hItems : given Edit.stackAlphabet? edits = some items) (hNot : key.2.2 ∉ items) :
      KeyViolation edits deterministic key .popped (.unknownStackSymbol key.2.2)
  | target {states : SortedSet String} {index : Nat} {move : Move}
      (hMove : (movesGiven edits key)[index]? = some move)
      (hStates : given Edit.states? edits = some states) (hNot : move.state ∉ states) :
      KeyViolation edits deterministic key (.target index) (.unknownState move.state)
  | pushed {items : Alphabet} {index place : Nat} {move : Move} {item : Char}
      (hMove : (movesGiven edits key)[index]? = some move) (hItem : move.push[place]? = some item)
      (hItems : given Edit.stackAlphabet? edits = some items) (hNot : item ∉ items) :
      KeyViolation edits deterministic key (.pushed index place) (.unknownStackSymbol item)
  | ambiguity {move another : Move} (hDeterministic : deterministic = true)
      (hMove : .transition key move ∈ edits) (hAnother : .transition key another ∈ edits)
      (hNe : move ≠ another) :
      KeyViolation edits deterministic key .ambiguity
        (.nondeterministicTransition key.1 key.2.1 key.2.2)

/-- The violations of edits that describe an automaton, deterministic or not: the check that fails,
and what is then reported. -/
inductive Violation (edits : List Edit) (deterministic : Bool) : Check → ValidationError → Prop where
  | missing {part : Part} (hMissing : ∀ edit ∈ edits, edit.part? ≠ some part) :
      Violation edits deterministic (.part part) (.missingArgument part.name)
  | start {states : SortedSet String} {q : String}
      (hStates : given Edit.states? edits = some states)
      (hStart : given Edit.start? edits = some q) (hNot : q ∉ states) :
      Violation edits deterministic .start (.startStateNotInStates q)
  | initialItem {items : Alphabet} {item : Char}
      (hItems : given Edit.stackAlphabet? edits = some items)
      (hItem : given Edit.initialItem? edits = some item) (hNot : item ∉ items) :
      Violation edits deterministic .initialItem (.initialStackItemNotInStackAlphabet item)
  | accept {states accept : SortedSet String} {q : String}
      (hStates : given Edit.states? edits = some states)
      (hAccept : given Edit.acceptance? edits = some (.finalState accept)) (hq : q ∈ accept)
      (hNot : q ∉ states) :
      Violation edits deterministic (.accept q) (.acceptStateNotInStates q)
  | entry {key : Key} {check : KeyCheck} {fault : ValidationError}
      (hKey : KeyViolation edits deterministic key check fault) :
      Violation edits deterministic (.entry key check) fault

/-- A check of a key reports one fault at most. -/
theorem KeyViolation.functional {key : Key} {check : KeyCheck}
    (hFault : KeyViolation edits deterministic key check fault)
    (hOther : KeyViolation edits deterministic key check other) : fault = other := by
  cases hFault <;> cases hOther <;> simp_all

/-- A move whose check fails has been given. -/
theorem KeyViolation.exists_move {key : Key} {check : KeyCheck} {index : Nat}
    (hViolation : KeyViolation edits deterministic key check fault)
    (hIndex : check.index? = some index) : ∃ move, (movesGiven edits key)[index]? = some move := by
  cases hViolation with
  | target hMove =>
      cases hIndex
      exact ⟨_, hMove⟩
  | pushed hMove =>
      cases hIndex
      exact ⟨_, hMove⟩
  | _ => cases hIndex

/-- A key whose check fails has been given a move. -/
theorem KeyViolation.exists_transition {key : Key} {check : KeyCheck}
    (hViolation : KeyViolation edits deterministic key check fault) :
    ∃ move, .transition key move ∈ edits := by
  cases hViolation with
  | source hMove => exact ⟨_, hMove⟩
  | symbol hMove => exact ⟨_, hMove⟩
  | popped hMove => exact ⟨_, hMove⟩
  | target hMove => exact ⟨_, mem_movesGiven.mp (List.mem_of_getElem? hMove)⟩
  | pushed hMove => exact ⟨_, mem_movesGiven.mp (List.mem_of_getElem? hMove)⟩
  | ambiguity _ hMove => exact ⟨_, hMove⟩

/-- A check that fails has one fault. -/
theorem Violation.functional {check : Check} (hFault : Violation edits deterministic check fault)
    (hOther : Violation edits deterministic check other) : fault = other := by
  cases hFault with
  | entry hKey =>
      cases hOther with
      | entry hOther => exact hKey.functional hOther
  | _ =>
      cases hOther
      simp_all

/-- What edits have to satisfy: all parts are given, the last value of each counts, and all names
and symbols that are used are among those declared. A deterministic automaton has no key for which
two different moves are given. -/
structure Acceptable (edits : List Edit) (deterministic : Bool) : Prop where
  part (part : Part) : ∃ edit ∈ edits, edit.part? = some part
  start_mem : ∀ states q, given Edit.states? edits = some states →
    given Edit.start? edits = some q → q ∈ states
  initial_mem : ∀ items item, given Edit.stackAlphabet? edits = some items →
    given Edit.initialItem? edits = some item → item ∈ items
  accept_mem : ∀ states accept, given Edit.states? edits = some states →
    given Edit.acceptance? edits = some (.finalState accept) → ∀ q ∈ accept, q ∈ states
  state_mem : ∀ states key move, given Edit.states? edits = some states →
    .transition key move ∈ edits → key.1 ∈ states ∧ move.state ∈ states
  symbol_mem : ∀ alphabet key move a, given Edit.alphabet? edits = some alphabet →
    .transition key move ∈ edits → key.2.1 = some a → a ∈ alphabet
  item_mem : ∀ items key move, given Edit.stackAlphabet? edits = some items →
    .transition key move ∈ edits → key.2.2 ∈ items ∧ ∀ item ∈ move.push, item ∈ items
  move_unique : deterministic = true → ∀ key move another, .transition key move ∈ edits →
    .transition key another ∈ edits → move = another

/-- What edits have to satisfy excludes every violation for a key. -/
theorem Acceptable.not_keyViolation {key : Key} {check : KeyCheck}
    (hAcceptable : Acceptable edits deterministic) :
    ¬ KeyViolation edits deterministic key check fault := by
  intro hViolation
  cases hViolation with
  | source hMove hStates hNot => exact hNot (hAcceptable.state_mem _ _ _ hStates hMove).1
  | symbol hMove hAlphabet ha hNot => exact hNot (hAcceptable.symbol_mem _ _ _ _ hAlphabet hMove ha)
  | popped hMove hItems hNot => exact hNot (hAcceptable.item_mem _ _ _ hItems hMove).1
  | target hMove hStates hNot =>
      have hMove := mem_movesGiven.mp (List.mem_of_getElem? hMove)
      exact hNot (hAcceptable.state_mem _ _ _ hStates hMove).2
  | pushed hMove hItem hItems hNot =>
      have hMove := mem_movesGiven.mp (List.mem_of_getElem? hMove)
      exact hNot ((hAcceptable.item_mem _ _ _ hItems hMove).2 _ (List.mem_of_getElem? hItem))
  | ambiguity hDeterministic hMove hAnother hNe =>
      exact hNe (hAcceptable.move_unique hDeterministic _ _ _ hMove hAnother)

/-- What edits have to satisfy excludes every violation. -/
theorem Acceptable.not_violation {check : Check} (hAcceptable : Acceptable edits deterministic) :
    ¬ Violation edits deterministic check fault := by
  intro hViolation
  cases hViolation with
  | missing hMissing =>
      obtain ⟨edit, hEdit, hPart⟩ := hAcceptable.part _
      exact hMissing edit hEdit hPart
  | start hStates hStart hNot => exact hNot (hAcceptable.start_mem _ _ hStates hStart)
  | initialItem hItems hItem hNot => exact hNot (hAcceptable.initial_mem _ _ hItems hItem)
  | accept hStates hAccept hq hNot => exact hNot (hAcceptable.accept_mem _ _ hStates hAccept _ hq)
  | entry hKey => exact hAcceptable.not_keyViolation hKey

/-- Edits without a violation satisfy all requirements. -/
theorem acceptable_of_not_violation
    (hNone : ∀ check fault, ¬ Violation edits deterministic check fault) :
    Acceptable edits deterministic where
  part part := by
    by_contra hMissing
    push Not at hMissing
    exact hNone _ _ (.missing hMissing)
  start_mem states q hStates hStart := by
    by_contra hNot
    exact hNone _ _ (.start hStates hStart hNot)
  initial_mem items item hItems hItem := by
    by_contra hNot
    exact hNone _ _ (.initialItem hItems hItem hNot)
  accept_mem states accept hStates hAccept q hq := by
    by_contra hNot
    exact hNone _ _ (.accept hStates hAccept hq hNot)
  state_mem states key move hStates hMove := by
    constructor <;> by_contra hNot
    · exact hNone _ _ (.entry (.source hMove hStates hNot))
    · obtain ⟨index, hIndex⟩ := List.mem_iff_getElem?.mp (mem_movesGiven.mpr hMove)
      exact hNone _ _ (.entry (.target hIndex hStates hNot))
  symbol_mem alphabet key move a hAlphabet hMove ha := by
    by_contra hNot
    exact hNone _ _ (.entry (.symbol hMove hAlphabet ha hNot))
  item_mem items key move hItems hMove := by
    constructor
    · by_contra hNot
      exact hNone _ _ (.entry (.popped hMove hItems hNot))
    · intro item hItem
      by_contra hNot
      obtain ⟨index, hIndex⟩ := List.mem_iff_getElem?.mp (mem_movesGiven.mpr hMove)
      obtain ⟨place, hPlace⟩ := List.mem_iff_getElem?.mp hItem
      exact hNone _ _ (.entry (.pushed hIndex hPlace hItems hNot))
  move_unique hDeterministic key move another hMove hAnother := by
    by_contra hNe
    exact hNone _ _ (.entry (.ambiguity hDeterministic hMove hAnother hNe))

end Acceptors.Pda
