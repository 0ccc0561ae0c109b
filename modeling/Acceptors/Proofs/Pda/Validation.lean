import Acceptors.Proofs.Pda.Violation
import Acceptors.Proofs.Violations

/-! The validation of descriptions of pushdown automata. The faults of an automaton are listed in the
order of the checks of its description, so that the report is the first violation. A move that is
given again has the same violations as before, and those come first where it was given first. -/
namespace Acceptors.Pda

open Validation

variable {p : Pda} {edits : List Edit} {key : Key} {moves : List Move} {move : Move} {index : Nat}
  {fault : ValidationError}

/-! The violations of a complete description, check by check. -/

namespace DescribedBy

variable (hp : p.DescribedBy edits)
include hp

/-- A complete description lacks no part. -/
theorem not_violation_part {part : Part} :
    ¬ Violation edits p.deterministic (.part part) fault := by
  rintro ⟨hMissing⟩
  obtain ⟨edit, hEdit, hPart⟩ := hp.part part
  exact hMissing edit hEdit hPart

/-- Of several values for a part, only the one that counts can be reported. -/
theorem violation_start_iff : Violation edits p.deterministic .start fault ↔
    p.start ∉ p.states ∧ fault = .startStateNotInStates p.start := by
  constructor
  · intro hViolation
    cases hViolation with
    | start hStates hStart hNot =>
        cases hp.states.symm.trans hStates
        cases hp.start.symm.trans hStart
        exact ⟨hNot, rfl⟩
  · rintro ⟨hNot, rfl⟩
    exact .start hp.states hp.start hNot

theorem violation_initialItem_iff : Violation edits p.deterministic .initialItem fault ↔
    p.initialItem ∉ p.stackAlphabet ∧ fault = .initialStackItemNotInStackAlphabet p.initialItem := by
  constructor
  · intro hViolation
    cases hViolation with
    | initialItem hItems hItem hNot =>
        cases hp.stackAlphabet.symm.trans hItems
        cases hp.initialItem.symm.trans hItem
        exact ⟨hNot, rfl⟩
  · rintro ⟨hNot, rfl⟩
    exact .initialItem hp.stackAlphabet hp.initialItem hNot

theorem violation_accept_iff {accept : SortedSet String} {q : String}
    (hAccept : p.acceptance = .finalState accept) (hq : q ∈ accept) :
    Violation edits p.deterministic (.accept q) fault ↔
      q ∉ p.states ∧ fault = .acceptStateNotInStates q := by
  constructor
  · intro hViolation
    cases hViolation with
    | accept hStates _ _ hNot =>
        cases hp.states.symm.trans hStates
        exact ⟨hNot, rfl⟩
  · rintro ⟨hNot, rfl⟩
    exact .accept hp.states (hp.acceptance.trans (congrArg some hAccept)) hq hNot

theorem keyViolation_source_iff (hKey : key ∈ p.table) :
    KeyViolation edits p.deterministic key .source fault ↔
      key.1 ∉ p.states ∧ fault = .unknownState key.1 := by
  constructor
  · intro hViolation
    cases hViolation with
    | source _ hStates hNot =>
        cases hp.states.symm.trans hStates
        exact ⟨hNot, rfl⟩
  · rintro ⟨hNot, rfl⟩
    obtain ⟨move, hMove⟩ := (hp.mem_table key).mp hKey
    exact .source hMove hp.states hNot

/-- A key that reads nothing has no symbol to be reported. -/
theorem keyViolation_symbol_iff (hKey : key ∈ p.table) :
    KeyViolation edits p.deterministic key .symbol fault ↔
      ∃ a, key.2.1 = some a ∧ a ∉ p.alphabet ∧ fault = .unknownSymbol a := by
  constructor
  · intro hViolation
    cases hViolation with
    | symbol _ hAlphabet ha hNot =>
        cases hp.alphabet.symm.trans hAlphabet
        exact ⟨_, ha, hNot, rfl⟩
  · rintro ⟨a, ha, hNot, rfl⟩
    obtain ⟨move, hMove⟩ := (hp.mem_table key).mp hKey
    exact .symbol hMove hp.alphabet ha hNot

theorem keyViolation_popped_iff (hKey : key ∈ p.table) :
    KeyViolation edits p.deterministic key .popped fault ↔
      key.2.2 ∉ p.stackAlphabet ∧ fault = .unknownStackSymbol key.2.2 := by
  constructor
  · intro hViolation
    cases hViolation with
    | popped _ hItems hNot =>
        cases hp.stackAlphabet.symm.trans hItems
        exact ⟨hNot, rfl⟩
  · rintro ⟨hNot, rfl⟩
    obtain ⟨move, hMove⟩ := (hp.mem_table key).mp hKey
    exact .popped hMove hp.stackAlphabet hNot

/-- A move is found by its number among those that were given, repetitions included. -/
theorem keyViolation_target_iff (hMove : (movesGiven edits key)[index]? = some move) :
    KeyViolation edits p.deterministic key (.target index) fault ↔
      move.state ∉ p.states ∧ fault = .unknownState move.state := by
  constructor
  · intro hViolation
    cases hViolation with
    | target hSame hStates hNot =>
        cases hp.states.symm.trans hStates
        cases hMove.symm.trans hSame
        exact ⟨hNot, rfl⟩
  · rintro ⟨hNot, rfl⟩
    exact .target hMove hp.states hNot

theorem keyViolation_pushed_iff {place : Nat} {item : Char}
    (hMove : (movesGiven edits key)[index]? = some move) (hItem : move.push[place]? = some item) :
    KeyViolation edits p.deterministic key (.pushed index place) fault ↔
      item ∉ p.stackAlphabet ∧ fault = .unknownStackSymbol item := by
  constructor
  · intro hViolation
    cases hViolation with
    | pushed hSame hSameItem hItems hNot =>
        cases hp.stackAlphabet.symm.trans hItems
        cases hMove.symm.trans hSame
        cases hItem.symm.trans hSameItem
        exact ⟨hNot, rfl⟩
  · rintro ⟨hNot, rfl⟩
    exact .pushed hMove hItem hp.stackAlphabet hNot

/-- The table lists no move twice, so that two moves of a key are different. -/
theorem keyViolation_ambiguity_iff (hMoves : p.table.get? key = some moves) :
    KeyViolation edits p.deterministic key .ambiguity fault ↔
      ¬ (p.deterministic = true → moves.length ≤ 1) ∧
        fault = .nondeterministicTransition key.1 key.2.1 key.2.2 := by
  rw [hp.moves_eq key moves hMoves, Discovery.length_distinct_le_one_iff]
  simp only [mem_movesGiven]
  constructor
  · intro hViolation
    cases hViolation with
    | ambiguity hDeterministic hMove hAnother hNe =>
        exact ⟨fun hUnique => hNe (hUnique hDeterministic _ hMove _ hAnother), rfl⟩
  · rintro ⟨hNot, rfl⟩
    push Not at hNot
    obtain ⟨hDeterministic, move, hMove, another, hAnother, hNe⟩ := hNot
    exact .ambiguity hDeterministic hMove hAnother hNe

/-! The faults of a key are ranked. -/

/-- The violations of one move that is given. -/
theorem ranks_moveFaults (hMove : (movesGiven edits key)[index]? = some move) :
    Ranks KeyCheck.Before
      (fun c e => c.index? = some index ∧ KeyViolation edits p.deterministic key c e)
      (p.moveFaults move) := by
  have hTarget := ranks_demand (KeyCheck.not_before_self (.target index))
    fun e => hp.keyViolation_target_iff hMove
  have hPushed : Ranks KeyCheck.Before
      (fun c e => ∃ place item, move.push[place]? = some item ∧
        c = .pushed index place ∧ KeyViolation edits p.deterministic key c e)
      (move.push.flatMap fun item =>
        demand (item ∈ p.stackAlphabet) (.unknownStackSymbol item)) := by
    apply ranks_flatMap
    · intro place item hItem
      exact ranks_demand (KeyCheck.not_before_self _) fun e => hp.keyViolation_pushed_iff hMove hItem
    · rintro i j _ _ hLess _ _ c e d e' ⟨rfl, _⟩ ⟨rfl, _⟩ hBefore
      rw [KeyCheck.pushed_before_pushed_iff] at hBefore
      exact Nat.lt_asymm hLess hBefore
  have hBoth := hTarget.append hPushed (by
    rintro c e d e' ⟨rfl, _⟩ ⟨place, item, _, rfl, _⟩
    exact KeyCheck.not_pushed_before_target)
  apply hBoth.congr
  intro c e
  constructor
  · rintro ⟨hIndex, hViolation⟩
    cases hViolation with
    | target hSame hStates hNot =>
        cases hIndex
        exact Or.inl ⟨rfl, .target hSame hStates hNot⟩
    | pushed hSame hItem hItems hNot =>
        cases hIndex
        cases hMove.symm.trans hSame
        exact Or.inr ⟨_, _, hItem, rfl, .pushed hSame hItem hItems hNot⟩
    | _ => cases hIndex
  · rintro (⟨rfl, hViolation⟩ | ⟨place, item, _, rfl, hViolation⟩)
    · exact ⟨rfl, hViolation⟩
    · exact ⟨rfl, hViolation⟩

/-- The violations of all moves that are given for a key. A move that is given again adds no fault
before those it had. -/
theorem ranks_movesFaults (hMoves : p.table.get? key = some moves) :
    Ranks KeyCheck.Before (fun c e => c.stage = 3 ∧ KeyViolation edits p.deterministic key c e)
      (moves.flatMap p.moveFaults) := by
  have hGiven : Ranks KeyCheck.Before
      (fun c e => ∃ index move, (movesGiven edits key)[index]? = some move ∧
        c.index? = some index ∧ KeyViolation edits p.deterministic key c e)
      ((movesGiven edits key).flatMap p.moveFaults) := by
    apply ranks_flatMap
    · intro index move hMove
      exact hp.ranks_moveFaults hMove
    · rintro i j _ _ hLess _ _ c e d e' ⟨hc, _⟩ ⟨hd, _⟩
      exact KeyCheck.not_before_of_index_lt hLess hc hd
  -- The table leaves repetitions out, and a repetition is never the first move with a fault.
  have hHead : (moves.flatMap p.moveFaults).head? =
      ((movesGiven edits key).flatMap p.moveFaults).head? := by
    rw [hp.moves_eq key moves hMoves, List.head?_flatMap, List.head?_flatMap,
      Discovery.findSome?_distinct]
  apply (hGiven.of_head?_eq hHead).congr
  intro c e
  rw [KeyCheck.stage_eq_three_iff]
  constructor
  · rintro ⟨⟨index, hIndex⟩, hViolation⟩
    obtain ⟨move, hMove⟩ := hViolation.exists_move hIndex
    exact ⟨index, move, hMove, hIndex, hViolation⟩
  · rintro ⟨index, move, _, hIndex, hViolation⟩
    exact ⟨⟨index, hIndex⟩, hViolation⟩

theorem ranks_symbolFaults (hKey : key ∈ p.table) :
    Ranks KeyCheck.Before (fun c e => c = .symbol ∧ KeyViolation edits p.deterministic key c e)
      (key.2.1.toList.flatMap fun a => demand (a ∈ p.alphabet) (.unknownSymbol a)) := by
  cases hSymbol : key.2.1 with
  | none =>
      apply ranks_nil
      rintro c e ⟨rfl, hViolation⟩
      obtain ⟨a, ha, _⟩ := (hp.keyViolation_symbol_iff hKey).mp hViolation
      cases hSymbol.symm.trans ha
  | some a =>
      rw [Option.toList_some, List.flatMap_singleton]
      apply ranks_demand (KeyCheck.not_before_self .symbol)
      intro e
      rw [hp.keyViolation_symbol_iff hKey, hSymbol]
      simp

/-- The violations of a key. -/
theorem ranks_entryFaults (hMoves : p.table.get? key = some moves) :
    Ranks KeyCheck.Before (KeyViolation edits p.deterministic key) (p.entryFaults (key, moves)) := by
  have hKey : key ∈ p.table := SortedMap.mem_of_get?_eq_some hMoves
  have hSource : Ranks KeyCheck.Before
      (fun c e => c.stage < 1 ∧ KeyViolation edits p.deterministic key c e)
      (demand (key.1 ∈ p.states) (.unknownState key.1)) := by
    apply (ranks_demand (KeyCheck.not_before_self .source)
      fun e => hp.keyViolation_source_iff hKey).congr
    rintro ⟨⟩ <;> simp [KeyCheck.stage]
  have hSymbol : Ranks KeyCheck.Before
      (fun c e => c.stage = 1 ∧ KeyViolation edits p.deterministic key c e)
      (key.2.1.toList.flatMap fun a => demand (a ∈ p.alphabet) (.unknownSymbol a)) := by
    apply (hp.ranks_symbolFaults hKey).congr
    rintro ⟨⟩ <;> simp [KeyCheck.stage]
  have hPopped : Ranks KeyCheck.Before
      (fun c e => c.stage = 2 ∧ KeyViolation edits p.deterministic key c e)
      (demand (key.2.2 ∈ p.stackAlphabet) (.unknownStackSymbol key.2.2)) := by
    apply (ranks_demand (KeyCheck.not_before_self .popped)
      fun e => hp.keyViolation_popped_iff hKey).congr
    rintro ⟨⟩ <;> simp [KeyCheck.stage]
  have hAmbiguity : Ranks KeyCheck.Before
      (fun c e => c.stage = 4 ∧ KeyViolation edits p.deterministic key c e)
      (demand (p.deterministic = true → moves.length ≤ 1)
        (.nondeterministicTransition key.1 key.2.1 key.2.2)) := by
    apply (ranks_demand (KeyCheck.not_before_self .ambiguity)
      fun e => hp.keyViolation_ambiguity_iff hMoves).congr
    rintro ⟨⟩ <;> simp [KeyCheck.stage]
  have hAll := (((hSource.append_stage KeyCheck.not_before_of_stage_lt hSymbol).append_stage
    KeyCheck.not_before_of_stage_lt hPopped).append_stage KeyCheck.not_before_of_stage_lt
    (hp.ranks_movesFaults hMoves)).append_stage KeyCheck.not_before_of_stage_lt hAmbiguity
  apply hAll.congr
  rintro ⟨⟩ <;> simp [KeyCheck.stage]

/-! The faults of an automaton are ranked. -/

/-- The violations of the accept states, if there are any. -/
theorem ranks_acceptFaults {accept : SortedSet String}
    (hAcceptance : p.acceptance = .finalState accept) :
    Ranks Check.Before
      (fun c e => ∃ q ∈ accept.toList, c = .accept q ∧ Violation edits p.deterministic c e)
      (accept.toList.flatMap fun q => demand (q ∈ p.states) (.acceptStateNotInStates q)) := by
  apply ranks_flatMap_of_pairwise accept.ascending
  · intro q hq
    exact ranks_demand (Check.not_before_self _) fun e => hp.violation_accept_iff hAcceptance hq
  · rintro q r hOrder c e d e' ⟨rfl, _⟩ ⟨rfl, _⟩
    exact KeyOrder.not_before_of_before hOrder

/-- The violations of the acceptance. -/
theorem ranks_acceptanceFaults :
    Ranks Check.Before (fun c e => c.stage = 3 ∧ Violation edits p.deterministic c e)
      p.acceptanceFaults := by
  cases hAcceptance : p.acceptance with
  | emptyStack =>
      rw [acceptanceFaults, hAcceptance]
      apply ranks_nil
      rintro c e ⟨hStage, hViolation⟩
      cases hViolation with
      | accept _ hAccept =>
          rw [hp.acceptance, hAcceptance] at hAccept
          cases hAccept
      | _ => cases hStage
  | finalState accept =>
      rw [acceptanceFaults, hAcceptance]
      apply (hp.ranks_acceptFaults hAcceptance).congr
      intro c e
      constructor
      · rintro ⟨hStage, hViolation⟩
        cases hViolation with
        | accept hStates hAccept hq hNot =>
            have hGiven := Option.some.inj (hp.acceptance.symm.trans hAccept)
            cases hAcceptance.symm.trans hGiven
            exact ⟨_, hq, rfl, .accept hStates hAccept hq hNot⟩
        | _ => cases hStage
      · rintro ⟨q, _, rfl, hViolation⟩
        exact ⟨rfl, hViolation⟩

/-- The violations of all keys. -/
theorem ranks_tableFaults :
    Ranks Check.Before (fun c e => c.stage = 4 ∧ Violation edits p.deterministic c e)
      (p.table.entries.flatMap p.entryFaults) := by
  have hEach : Ranks Check.Before
      (fun c e => ∃ entry ∈ p.table.entries, ∃ check, Check.entry entry.1 check = c ∧
        KeyViolation edits p.deterministic entry.1 check e)
      (p.table.entries.flatMap p.entryFaults) := by
    apply ranks_flatMap_of_pairwise p.table.ascending
    · rintro ⟨key, moves⟩ hEntry
      have hMoves := SortedMap.mem_entries_iff.mp hEntry
      exact (hp.ranks_entryFaults hMoves).map fun c d => Check.entry_before_entry_iff.mp
    · rintro entry other hOrder c e d e' ⟨check, rfl, _⟩ ⟨another, rfl, _⟩
      exact Check.not_before_of_key_before hOrder check another
  apply hEach.congr
  intro c e
  constructor
  · rintro ⟨hStage, hViolation⟩
    cases hViolation with
    | entry hKey =>
        have hMem := (hp.mem_table _).mpr hKey.exists_transition
        obtain ⟨moves, hMoves⟩ := SortedMap.exists_get?_of_mem hMem
        exact ⟨_, SortedMap.mem_entries_iff.mpr hMoves, _, rfl, hKey⟩
    | _ => cases hStage
  · rintro ⟨entry, _, check, rfl, hKey⟩
    exact ⟨rfl, .entry hKey⟩

/-- The faults of an automaton start with the first violation of its description. -/
theorem ranks_faults : Ranks Check.Before (Violation edits p.deterministic) p.faults := by
  have hStart : Ranks Check.Before
      (fun c e => c.stage < 2 ∧ Violation edits p.deterministic c e)
      (demand (p.start ∈ p.states) (.startStateNotInStates p.start)) := by
    apply (ranks_demand (Check.not_before_self .start) fun e => hp.violation_start_iff).congr
    rintro ⟨⟩ <;> simp [Check.stage, hp.not_violation_part]
  have hInitial : Ranks Check.Before
      (fun c e => c.stage = 2 ∧ Violation edits p.deterministic c e)
      (demand (p.initialItem ∈ p.stackAlphabet)
        (.initialStackItemNotInStackAlphabet p.initialItem)) := by
    apply (ranks_demand (Check.not_before_self .initialItem)
      fun e => hp.violation_initialItem_iff).congr
    rintro ⟨⟩ <;> simp [Check.stage]
  have hAll := ((hStart.append_stage Check.not_before_of_stage_lt hInitial).append_stage
    Check.not_before_of_stage_lt hp.ranks_acceptanceFaults).append_stage
    Check.not_before_of_stage_lt hp.ranks_tableFaults
  apply hAll.congr
  rintro ⟨⟩ <;> simp [Check.stage]

end DescribedBy

/-! The report of a builder. -/

/-- If a part is missing and all parts before it are given, this is the first violation. -/
theorem isFirst_missing {deterministic : Bool} {part : Part}
    (hMissing : (Draft.ofEdits edits).has part = false)
    (hGiven : ∀ before : Part, before.position < part.position →
      (Draft.ofEdits edits).has before = true) :
    IsFirst Check.Before (Violation edits deterministic) (.missingArgument part.name) := by
  refine ⟨.part part, .missing ?_, ?_⟩
  · intro edit hEdit hPart
    rw [Draft.has_ofEdits.mpr ⟨edit, hEdit, hPart⟩] at hMissing
    cases hMissing
  · intro check fault hBefore hViolation
    cases hViolation with
    | missing hNone =>
        obtain ⟨edit, hEdit, hPart⟩ := Draft.has_ofEdits.mp (hGiven _ hBefore)
        exact hNone edit hEdit hPart
    | _ => exact absurd hBefore (Check.not_before_of_stage_lt _ _ (by simp [Check.stage]))

/-- A description that is rejected is rejected with its first violation. -/
theorem isFirst_of_build {deterministic : Bool}
    (hBuild : (Draft.ofEdits edits).build deterministic = .error fault) :
    IsFirst Check.Before (Violation edits deterministic) fault := by
  rcases (Draft.ofEdits edits).build_outcomes deterministic with
    ⟨part, hMissing, hGiven, hReport⟩ | ⟨p, hDraft, rfl, hValid⟩
  · cases hReport.symm.trans hBuild
    exact isFirst_missing hMissing hGiven
  · have hHead := judge_eq_error_iff.mp (hValid.symm.trans hBuild)
    exact (describedBy_of_draft_eq hDraft).ranks_faults.isFirst fault hHead

/-- A description that is accepted satisfies all requirements. -/
theorem acceptable_of_build {deterministic : Bool}
    (hBuild : (Draft.ofEdits edits).build deterministic = .ok p) :
    Acceptable edits deterministic := by
  obtain ⟨hDraft, rfl, hWellFormed⟩ := Draft.of_build hBuild
  have hRanks := (describedBy_of_draft_eq hDraft).ranks_faults
  exact acceptable_of_not_violation (hRanks.not_violated (faults_eq_nil_iff.mpr hWellFormed))

/-- A description that satisfies all requirements, and only such a one, is built. Any other is
rejected with its first violation: a missing part, then the start state, the initial item, the
accept states in ascending order, and key by key what was given for it. -/
theorem build_reports_first_violation (edits : List Edit) (deterministic : Bool) :
    ((∃ p, (Draft.ofEdits edits).build deterministic = .ok p) ↔ Acceptable edits deterministic) ∧
    ∀ fault, (Draft.ofEdits edits).build deterministic = .error fault ↔
      IsFirst Check.Before (Violation edits deterministic) fault := by
  cases hBuild : (Draft.ofEdits edits).build deterministic with
  | ok p =>
      have hAcceptable := acceptable_of_build hBuild
      refine ⟨⟨fun _ => hAcceptable, fun _ => ⟨p, rfl⟩⟩, fun fault => ⟨nofun, ?_⟩⟩
      rintro ⟨check, hViolation, _⟩
      exact absurd hViolation hAcceptable.not_violation
  | error report =>
      have hFirst := isFirst_of_build hBuild
      constructor
      · refine ⟨nofun, ?_⟩
        intro hAcceptable
        obtain ⟨check, hViolation, _⟩ := hFirst
        exact absurd hViolation hAcceptable.not_violation
      · intro fault
        constructor
        · rintro ⟨⟩
          exact hFirst
        · intro hFault
          have hSame : report = fault :=
            IsFirst.unique Check.connected (fun _ _ _ hViolation => hViolation.functional)
              hFirst hFault
          rw [hSame]

/-- The second move for the key pushes an item that is not declared. This is found before the two
moves are, and before the state of the other key, which comes later in the order of the names. -/
example : (Draft.ofEdits [.alphabet (Alphabet.ofString "a"),
    .stackAlphabet (Alphabet.ofString "Z"), .initialItem 'Z', .states ["p"], .start "p",
    .transition ("r", none, 'Z') ⟨"p", []⟩, .transition ("p", some 'a', 'Z') ⟨"p", ['Z']⟩,
    .transition ("p", some 'a', 'Z') ⟨"p", ['Z', 'X']⟩, .acceptOnEmptyStack]).build true =
      .error (.unknownStackSymbol 'X') := by
  decide

end Acceptors.Pda
