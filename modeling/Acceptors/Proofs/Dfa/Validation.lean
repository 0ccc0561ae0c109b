import Acceptors.Proofs.Violations

/-! The validation of deterministic automata. The table may lack entries, and it may have entries
for states and symbols that are not declared. Missing entries are looked for first, so that no
other entry can stand in for one. -/
namespace Acceptors.Dfa

open Validation

variable {d : Dfa} {q r : String} {a : Char} {fault other : ValidationError}

/-! The checks and their order. -/

inductive EntryCheck where
  | source
  | symbol
  | target

def EntryCheck.position : EntryCheck → Nat
  | source => 0
  | symbol => 1
  | target => 2

/-- What is checked of an automaton: its start state, each accept state, that there is an entry for
a state and a symbol, and each entry that there is. -/
inductive Check where
  | start
  | accept (state : String)
  | present (key : String × Char)
  | entry (key : String × Char) (check : EntryCheck)

namespace Check

/-- Checks of different kinds have an order of their own. -/
def stage : Check → Nat
  | start => 0
  | accept _ => 1
  | present _ => 2
  | entry _ _ => 3

/-- Whether a check is made before another. Names are checked in ascending order, and so are the
pairs of state and symbol, by state and then by symbol. -/
def Before : Check → Check → Prop
  | accept q, accept r => KeyOrder.before q r = true
  | present k, present l => KeyOrder.before k l = true
  | entry k c, entry l d => KeyOrder.before k l = true ∨ k = l ∧ c.position < d.position
  | c, d => c.stage < d.stage

theorem not_before_self (c : Check) : ¬ c.Before c := by
  cases c <;> simp [Before, stage, KeyOrder.before_irrefl]

/-- A check of an earlier kind is made before all checks of a later one. -/
theorem before_of_stage_lt {c d : Check} (hStage : c.stage < d.stage) : c.Before d := by
  cases c <;> cases d <;> simp_all [Before, stage]

theorem not_before_of_stage_lt (c d : Check) (hStage : c.stage < d.stage) : ¬ d.Before c := by
  cases c <;> cases d <;> simp_all [Before, stage]

/-- Of an entry, the source is checked first, then the symbol and then the target. -/
theorem entry_before_entry_iff {key : String × Char} {c d : EntryCheck} :
    (entry key c).Before (entry key d) ↔ c.position < d.position := by
  simp [Before, KeyOrder.before_irrefl]

theorem not_before_of_key_before {k l : String × Char} (hBefore : KeyOrder.before k l = true)
    (c d : EntryCheck) : ¬ (entry l d).Before (entry k c) := by
  intro hBack
  rcases hBack with hKey | ⟨hSame, _⟩
  · exact KeyOrder.ne_of_before (KeyOrder.before_trans hBefore hKey) rfl
  · exact KeyOrder.ne_of_before hBefore hSame.symm

/-- Of two different checks, one is made before the other. -/
theorem connected (c d : Check) : c.Before d ∨ c = d ∨ d.Before c := by
  rcases Nat.lt_trichotomy c.stage d.stage with hLess | hSame | hMore
  · exact Or.inl (before_of_stage_lt hLess)
  · cases c <;> cases d <;> try cases hSame
    -- Left are two checks of one kind: start, accept states, missing entries and entries.
    · exact Or.inr (Or.inl rfl)
    · next q r =>
        simpa [Before] using KeyOrder.before_trichotomy q r
    · next k l =>
        simpa [Before] using KeyOrder.before_trichotomy k l
    · next k c l d =>
        rcases KeyOrder.before_trichotomy k l with hBefore | rfl | hAfter
        · exact Or.inl (Or.inl hBefore)
        · simp only [entry_before_entry_iff, entry.injEq, true_and]
          cases c <;> cases d <;> simp [EntryCheck.position]
        · exact Or.inr (Or.inr (Or.inl hAfter))
  · exact Or.inr (Or.inr (before_of_stage_lt hMore))

end Check

/-! Violations. -/

/-- The violations in an automaton: the check that fails, and what is then reported. -/
inductive Violation (d : Dfa) : Check → ValidationError → Prop where
  | start (hNot : d.start ∉ d.states) : Violation d .start (.startStateNotInStates d.start)
  | accept {q : String} (hq : q ∈ d.accept) (hNot : q ∉ d.states) :
      Violation d (.accept q) (.acceptStateNotInStates q)
  | missing {q : String} {a : Char} (hq : q ∈ d.states) (ha : a ∈ d.alphabet)
      (hNone : (q, a) ∉ d.table) : Violation d (.present (q, a)) (.missingTransition q a)
  | source {q : String} {a : Char} (hEntry : (q, a) ∈ d.table) (hNot : q ∉ d.states) :
      Violation d (.entry (q, a) .source) (.unknownState q)
  | symbol {q : String} {a : Char} (hEntry : (q, a) ∈ d.table) (hNot : a ∉ d.alphabet) :
      Violation d (.entry (q, a) .symbol) (.unknownSymbol a)
  | target {q r : String} {a : Char} (hEntry : d.table.get? (q, a) = some r) (hNot : r ∉ d.states) :
      Violation d (.entry (q, a) .target) (.unknownState r)

namespace Violation

/-- A check that fails has one fault. -/
theorem functional {check : Check} (hFault : d.Violation check fault)
    (hOther : d.Violation check other) : fault = other := by
  cases hFault <;> cases hOther <;> simp_all

/-- An entry of which a check fails is in the table. -/
theorem exists_entry {key : String × Char} {check : EntryCheck}
    (hViolation : d.Violation (.entry key check) fault) : ∃ r, d.table.get? key = some r := by
  cases hViolation with
  | source hEntry => exact SortedMap.exists_get?_of_mem hEntry
  | symbol hEntry => exact SortedMap.exists_get?_of_mem hEntry
  | target hEntry => exact ⟨_, hEntry⟩

/-- Of the start state, only that it is not declared can be reported. -/
theorem start_iff : d.Violation .start fault ↔
    d.start ∉ d.states ∧ fault = .startStateNotInStates d.start := by
  constructor
  · intro hViolation
    cases hViolation with
    | start hNot => exact ⟨hNot, rfl⟩
  · rintro ⟨hNot, rfl⟩
    exact .start hNot

theorem accept_iff (hq : q ∈ d.accept) : d.Violation (.accept q) fault ↔
    q ∉ d.states ∧ fault = .acceptStateNotInStates q := by
  constructor
  · intro hViolation
    cases hViolation with
    | accept _ hNot => exact ⟨hNot, rfl⟩
  · rintro ⟨hNot, rfl⟩
    exact .accept hq hNot

/-- An entry is missed for every declared pair that has none. -/
theorem missing_iff (hq : q ∈ d.states) (ha : a ∈ d.alphabet) :
    d.Violation (.present (q, a)) fault ↔
      (q, a) ∉ d.table ∧ fault = .missingTransition q a := by
  constructor
  · intro hViolation
    cases hViolation with
    | missing _ _ hNone => exact ⟨hNone, rfl⟩
  · rintro ⟨hNone, rfl⟩
    exact .missing hq ha hNone

section Entry

variable (hEntry : d.table.get? (q, a) = some r)
include hEntry

theorem source_iff : d.Violation (.entry (q, a) .source) fault ↔
    q ∉ d.states ∧ fault = .unknownState q := by
  constructor
  · intro hViolation
    cases hViolation with
    | source _ hNot => exact ⟨hNot, rfl⟩
  · rintro ⟨hNot, rfl⟩
    exact .source (SortedMap.mem_of_get?_eq_some hEntry) hNot

theorem symbol_iff : d.Violation (.entry (q, a) .symbol) fault ↔
    a ∉ d.alphabet ∧ fault = .unknownSymbol a := by
  constructor
  · intro hViolation
    cases hViolation with
    | symbol _ hNot => exact ⟨hNot, rfl⟩
  · rintro ⟨hNot, rfl⟩
    exact .symbol (SortedMap.mem_of_get?_eq_some hEntry) hNot

/-- An unknown target is reported as an unknown source is. -/
theorem target_iff : d.Violation (.entry (q, a) .target) fault ↔
    r ∉ d.states ∧ fault = .unknownState r := by
  constructor
  · intro hViolation
    cases hViolation with
    | target hSame hNot =>
        cases hEntry.symm.trans hSame
        exact ⟨hNot, rfl⟩
  · rintro ⟨hNot, rfl⟩
    exact .target hEntry hNot

end Entry

end Violation

/-! The faults are ranked. -/

/-- The violations of the accept states. -/
theorem ranks_acceptFaults : Ranks Check.Before (fun c e => c.stage = 1 ∧ d.Violation c e)
    (d.accept.toList.flatMap fun q => demand (q ∈ d.states) (.acceptStateNotInStates q)) := by
  have hEach : Ranks Check.Before
      (fun c e => ∃ q ∈ d.accept.toList, c = .accept q ∧ d.Violation c e)
      (d.accept.toList.flatMap fun q => demand (q ∈ d.states) (.acceptStateNotInStates q)) := by
    apply ranks_flatMap_of_pairwise d.accept.ascending
    · intro q hq
      exact ranks_demand (Check.not_before_self _) fun e => Violation.accept_iff hq
    · rintro q r hOrder c e c' e' ⟨rfl, _⟩ ⟨rfl, _⟩
      exact KeyOrder.not_before_of_before hOrder
  apply hEach.congr
  intro c e
  constructor
  · intro ⟨hStage, hViolation⟩
    cases hViolation with
    | accept hq hNot => exact ⟨_, hq, rfl, .accept hq hNot⟩
    | _ => cases hStage
  · rintro ⟨q, _, rfl, hViolation⟩
    exact ⟨rfl, hViolation⟩

/-- The missing entries of a state. -/
theorem ranks_missingFaultsOf (hq : q ∈ d.states) :
    Ranks Check.Before
      (fun c e => ∃ a ∈ d.alphabet.toList, c = .present (q, a) ∧ d.Violation c e)
      (d.alphabet.toList.flatMap fun a => demand ((q, a) ∈ d.table) (.missingTransition q a)) := by
  apply ranks_flatMap_of_pairwise d.alphabet.ascending
  · intro a ha
    exact ranks_demand (Check.not_before_self _) fun e => Violation.missing_iff hq ha
  · rintro a b hOrder c e c' e' ⟨rfl, _⟩ ⟨rfl, _⟩
    exact KeyOrder.not_before_of_before (KeyOrder.before_mk_iff.mpr (Or.inr ⟨rfl, hOrder⟩))

/-- The missing entries of all states. -/
theorem ranks_missingFaults : Ranks Check.Before (fun c e => c.stage = 2 ∧ d.Violation c e)
    (d.states.toList.flatMap fun q => d.alphabet.toList.flatMap fun a =>
      demand ((q, a) ∈ d.table) (.missingTransition q a)) := by
  have hEach : Ranks Check.Before
      (fun c e => ∃ q ∈ d.states.toList, ∃ a ∈ d.alphabet.toList,
        c = .present (q, a) ∧ d.Violation c e)
      (d.states.toList.flatMap fun q => d.alphabet.toList.flatMap fun a =>
        demand ((q, a) ∈ d.table) (.missingTransition q a)) := by
    apply ranks_flatMap_of_pairwise d.states.ascending
    · intro q hq
      exact ranks_missingFaultsOf hq
    · rintro q r hOrder c e c' e' ⟨a, _, rfl, _⟩ ⟨b, _, rfl, _⟩
      exact KeyOrder.not_before_of_before (KeyOrder.before_mk_iff.mpr (Or.inl hOrder))
  apply hEach.congr
  intro c e
  constructor
  · intro ⟨hStage, hViolation⟩
    cases hViolation with
    | missing hq ha hNone => exact ⟨_, hq, _, ha, rfl, .missing hq ha hNone⟩
    | _ => cases hStage
  · rintro ⟨q, _, a, _, rfl, hViolation⟩
    exact ⟨rfl, hViolation⟩

/-- The violations of an entry. -/
theorem ranks_entryFaults (hEntry : d.table.get? (q, a) = some r) :
    Ranks Check.Before (fun c e => ∃ check, c = .entry (q, a) check ∧ d.Violation c e)
      (d.entryFaults ((q, a), r)) := by
  have hSource := ranks_demand (Check.not_before_self (.entry (q, a) .source))
    fun e => Violation.source_iff hEntry
  have hSymbol := ranks_demand (Check.not_before_self (.entry (q, a) .symbol))
    fun e => Violation.symbol_iff hEntry
  have hTarget := ranks_demand (Check.not_before_self (.entry (q, a) .target))
    fun e => Violation.target_iff hEntry
  have hNames := hSource.append hSymbol (by
    rintro c e c' e' ⟨rfl, _⟩ ⟨rfl, _⟩
    simp [Check.entry_before_entry_iff, EntryCheck.position])
  have hAll := hNames.append hTarget (by
    rintro c e c' e' (⟨rfl, _⟩ | ⟨rfl, _⟩) ⟨rfl, _⟩ <;>
      simp [Check.entry_before_entry_iff, EntryCheck.position])
  apply hAll.congr
  intro c e
  constructor
  · rintro ⟨check, rfl, hViolation⟩
    cases check <;> simp [hViolation]
  · rw [← or_and_right, ← or_and_right]
    rintro ⟨(rfl | rfl) | rfl, hViolation⟩ <;> exact ⟨_, rfl, hViolation⟩

/-- The violations of the table. -/
theorem ranks_tableFaults : Ranks Check.Before (fun c e => c.stage = 3 ∧ d.Violation c e)
    (d.table.entries.flatMap d.entryFaults) := by
  have hEach : Ranks Check.Before
      (fun c e => ∃ entry ∈ d.table.entries, ∃ check, c = .entry entry.1 check ∧ d.Violation c e)
      (d.table.entries.flatMap d.entryFaults) := by
    apply ranks_flatMap_of_pairwise d.table.ascending
    · intro entry hEntry
      exact ranks_entryFaults (SortedMap.mem_entries_iff.mp hEntry)
    · rintro entry other hOrder c e c' e' ⟨check, rfl, _⟩ ⟨another, rfl, _⟩
      exact Check.not_before_of_key_before hOrder check another
  apply hEach.congr
  intro c e
  constructor
  · intro ⟨hStage, hViolation⟩
    cases c with
    | entry key check =>
        obtain ⟨r, hEntry⟩ := hViolation.exists_entry
        exact ⟨(key, r), SortedMap.mem_entries_iff.mpr hEntry, check, rfl, hViolation⟩
    | _ => cases hStage
  · rintro ⟨entry, _, check, rfl, hViolation⟩
    exact ⟨rfl, hViolation⟩

/-- The faults of an automaton start with the first violation. -/
theorem ranks_faults : Ranks Check.Before d.Violation d.faults := by
  have hStart : Ranks Check.Before (fun c e => c.stage < 1 ∧ d.Violation c e)
      (demand (d.start ∈ d.states) (.startStateNotInStates d.start)) := by
    apply (ranks_demand (Check.not_before_self .start) fun e => Violation.start_iff).congr
    intro c e
    cases c <;> simp [Check.stage]
  have hAll := ((hStart.append_stage Check.not_before_of_stage_lt ranks_acceptFaults).append_stage
    Check.not_before_of_stage_lt ranks_missingFaults).append_stage
    Check.not_before_of_stage_lt ranks_tableFaults
  apply hAll.congr
  intro c e
  cases c <;> simp [Check.stage]

/-- Exactly the well-formed automata are accepted, and they are left as they are. Any other is
rejected with its first violation: the start state, the least accept state that is not declared, the
least pair of state and symbol without an entry, and then what is wrong with the first entry that
refers to something not declared. -/
theorem validate_reports_first_violation (d : Dfa) :
    (∀ e, d.validate = .ok e ↔ d.WellFormed ∧ d = e) ∧
      ∀ fault, d.validate = .error fault ↔ IsFirst Check.Before d.Violation fault := by
  refine ⟨fun e => validate_eq_ok_iff, ?_⟩
  intro fault
  rw [validate, judge_eq_error_iff]
  apply ranks_faults.head?_eq_some_iff Check.connected
  intro check fault other hFault hOther
  exact hFault.functional hOther

/-- The entry for the undeclared state makes the table as large as it has to be, but the entry of
`q` for `b` is missing. This is found before the undeclared state and the undeclared target are. -/
example : validate
    { alphabet := Alphabet.ofString "ab"
      states := SortedSet.ofList ["p", "q"]
      start := "q"
      accept := SortedSet.ofList ["p"]
      table := SortedMap.ofList [(("a", 'b'), "p"), (("p", 'a'), "z"), (("p", 'b'), "q"),
        (("q", 'a'), "p")] } = .error (.missingTransition "q" 'b') := by
  decide

end Acceptors.Dfa
