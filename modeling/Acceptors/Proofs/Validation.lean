import Acceptors.Dfa.Draft
import Acceptors.Nfa.Draft
import Acceptors.Pda.Draft
import Acceptors.Proofs.Sorted.Lemmas

/-! Validation accepts exactly the well-formed automata, and returns them as they are. -/
namespace Acceptors

open Validation

/-- A requirement that is met leaves no fault. -/
theorem Validation.demand_eq_nil_iff {requirement : Prop} [Decidable requirement]
    {fault : ValidationError} : demand requirement fault = [] ↔ requirement := by
  rw [demand]
  split <;> simp_all

/-- A description that asks for a part first is accepted only if the part was given. -/
theorem Validation.require_bind_eq_ok {α β : Type} {name : String} {part : Option α}
    {rest : α → Except ValidationError β} {result : β}
    (hOk : (require name part >>= rest) = .ok result) : ∃ a, part = some a ∧ rest a = .ok result := by
  cases part with
  | none => cases hOk
  | some a => exact ⟨a, rfl, hOk⟩

namespace Dfa

variable {d : Dfa}

theorem faults_eq_nil_iff : d.faults = [] ↔ d.WellFormed := by
  simp only [faults, List.append_eq_nil_iff, List.flatMap_eq_nil_iff, demand_eq_nil_iff,
    entryFaults, SortedSet.mem_toList]
  constructor
  · intro hFaultless
    obtain ⟨⟨⟨hStart, hAccept⟩, hTotal⟩, hEntries⟩ := hFaultless
    have hEntry : ∀ q a r, d.table.get? (q, a) = some r →
        (q ∈ d.states ∧ a ∈ d.alphabet) ∧ r ∈ d.states := fun q a r hGet =>
      hEntries ((q, a), r) (SortedMap.mem_entries_iff.mpr hGet)
    refine ⟨hStart, hAccept, fun q a => ⟨fun hIn => ?_, fun h => hTotal q h.1 a h.2⟩, ?_⟩
    · obtain ⟨r, hGet⟩ := SortedMap.exists_get?_of_mem hIn
      exact (hEntry q a r hGet).1
    · intro q a r hGet
      exact (hEntry q a r hGet).2
  · intro hd
    refine ⟨⟨⟨hd.start_mem, hd.accept_mem⟩, ?_⟩, ?_⟩
    · intro q hq a ha
      exact (hd.mem_table q a).mpr ⟨hq, ha⟩
    · intro entry hIn
      have hKey := (hd.mem_table entry.1.1 entry.1.2).mp (SortedMap.mem_of_mem_entries hIn)
      exact ⟨hKey, hd.target_mem _ _ _ (SortedMap.mem_entries_iff.mp hIn)⟩

/-- Exactly the well-formed automata are accepted, and they are not changed. -/
theorem validate_eq_ok_iff {e : Dfa} : d.validate = .ok e ↔ d.WellFormed ∧ d = e := by
  rw [validate, judge_eq_ok_iff, faults_eq_nil_iff]

/-- What is built part by part has been validated. -/
theorem Draft.wellFormed_of_build {draft : Draft} (hBuild : draft.build = .ok d) :
    d.WellFormed := by
  obtain ⟨alphabet, _, hBuild⟩ := require_bind_eq_ok hBuild
  obtain ⟨states, _, hBuild⟩ := require_bind_eq_ok hBuild
  obtain ⟨start, _, hBuild⟩ := require_bind_eq_ok hBuild
  obtain ⟨table, _, hBuild⟩ := require_bind_eq_ok hBuild
  obtain ⟨accept, _, hBuild⟩ := require_bind_eq_ok hBuild
  obtain ⟨hWellFormed, rfl⟩ := validate_eq_ok_iff.mp hBuild
  exact hWellFormed

end Dfa

namespace Nfa

variable {n : Nfa}

theorem faults_eq_nil_iff : n.faults = [] ↔ n.WellFormed := by
  simp only [faults, List.append_eq_nil_iff, List.flatMap_eq_nil_iff, demand_eq_nil_iff,
    entryFaults, SortedSet.mem_toList]
  constructor
  · intro hFaultless
    obtain ⟨⟨hStart, hAccept⟩, hEntries⟩ := hFaultless
    have hEntry : ∀ q a targets, n.table.get? (q, a) = some targets →
        (q ∈ n.states ∧ a ∈ n.alphabet) ∧ ∀ r ∈ targets, r ∈ n.states :=
      fun q a targets hGet => hEntries ((q, a), targets) (SortedMap.mem_entries_iff.mpr hGet)
    have hKey : ∀ q a, (q, a) ∈ n.table → q ∈ n.states ∧ a ∈ n.alphabet := by
      intro q a hIn
      obtain ⟨targets, hGet⟩ := SortedMap.exists_get?_of_mem hIn
      exact (hEntry q a targets hGet).1
    exact ⟨⟨hStart, hAccept, fun q a hIn => (hKey q a hIn).1,
      fun q a targets hGet => (hEntry q a targets hGet).2⟩, fun q a hIn => (hKey q a hIn).2⟩
  · intro hn
    refine ⟨⟨hn.start_mem, hn.accept_mem⟩, fun entry hIn => ⟨⟨?_, ?_⟩, ?_⟩⟩
    · exact hn.source_mem _ _ (SortedMap.mem_of_mem_entries hIn)
    · exact hn.symbol_mem _ _ (SortedMap.mem_of_mem_entries hIn)
    · exact hn.target_mem _ _ _ (SortedMap.mem_entries_iff.mp hIn)

theorem validate_eq_ok_iff {m : Nfa} : n.validate = .ok m ↔ n.WellFormed ∧ n = m := by
  rw [validate, judge_eq_ok_iff, faults_eq_nil_iff]

/-- Whatever parts are given, a build that succeeds is well formed. -/
theorem Draft.wellFormed_of_build {draft : Draft} (hBuild : draft.build = .ok n) :
    n.WellFormed := by
  obtain ⟨alphabet, _, hBuild⟩ := require_bind_eq_ok hBuild
  obtain ⟨states, _, hBuild⟩ := require_bind_eq_ok hBuild
  obtain ⟨start, _, hBuild⟩ := require_bind_eq_ok hBuild
  obtain ⟨table, _, hBuild⟩ := require_bind_eq_ok hBuild
  obtain ⟨accept, _, hBuild⟩ := require_bind_eq_ok hBuild
  obtain ⟨hWellFormed, rfl⟩ := validate_eq_ok_iff.mp hBuild
  exact hWellFormed

end Nfa

namespace Pda

variable {p : Pda} {move : Move}

/-- A move is checked for its target and for every item that it pushes. -/
theorem moveFaults_eq_nil_iff : p.moveFaults move = [] ↔ move.WellFormed p := by
  simp only [moveFaults, List.append_eq_nil_iff, List.flatMap_eq_nil_iff, demand_eq_nil_iff]
  exact ⟨fun hFaultless => ⟨hFaultless.1, hFaultless.2⟩, fun hMove => ⟨hMove.1, hMove.2⟩⟩

/-- Acceptance by empty stack needs no check. -/
theorem acceptanceFaults_eq_nil_iff : p.acceptanceFaults = [] ↔
    ∀ accept, p.acceptance = .finalState accept → ∀ q ∈ accept, q ∈ p.states := by
  rw [acceptanceFaults]
  cases p.acceptance with
  | finalState accept => simp [List.flatMap_eq_nil_iff, demand_eq_nil_iff]
  | emptyStack => simp

/-- The checks ask for what makes an automaton well formed, and for nothing else. -/
theorem faults_eq_nil_iff : p.faults = [] ↔ p.WellFormed := by
  simp only [faults, List.append_eq_nil_iff, List.flatMap_eq_nil_iff, demand_eq_nil_iff,
    entryFaults, moveFaults_eq_nil_iff, acceptanceFaults_eq_nil_iff, Option.mem_toList]
  constructor
  · intro hFaultless
    obtain ⟨⟨⟨hStart, hInitial⟩, hAccept⟩, hEntries⟩ := hFaultless
    have hEntry : ∀ key ∈ p.table, key.1 ∈ p.states ∧ (∀ a, key.2.1 = some a → a ∈ p.alphabet) ∧
        key.2.2 ∈ p.stackAlphabet := by
      intro key hKey
      obtain ⟨moves, hGet⟩ := SortedMap.exists_get?_of_mem hKey
      obtain ⟨⟨⟨⟨hSource, hSymbol⟩, hPop⟩, _⟩, _⟩ :=
        hEntries (key, moves) (SortedMap.mem_entries_iff.mpr hGet)
      exact ⟨hSource, hSymbol, hPop⟩
    refine ⟨hStart, hInitial, hAccept, fun key hKey => (hEntry key hKey).1,
      fun key hKey => (hEntry key hKey).2.1, fun key hKey => (hEntry key hKey).2.2, ?_, ?_⟩
    · intro key moves hGet
      exact (hEntries (key, moves) (SortedMap.mem_entries_iff.mpr hGet)).1.2
    · intro hDeterministic key moves hGet
      exact (hEntries (key, moves) (SortedMap.mem_entries_iff.mpr hGet)).2 hDeterministic
  · intro hp
    refine ⟨⟨⟨hp.start_mem, hp.initial_mem⟩, hp.accept_mem⟩, ?_⟩
    intro entry hIn
    have hKey := SortedMap.mem_of_mem_entries hIn
    have hMoves := SortedMap.mem_entries_iff.mp hIn
    exact ⟨⟨⟨⟨hp.source_mem _ hKey, hp.symbol_mem _ hKey⟩, hp.pop_mem _ hKey⟩,
      hp.move_mem _ _ hMoves⟩, fun hDeterministic => hp.at_most_one hDeterministic _ _ hMoves⟩

theorem validate_eq_ok_iff {q : Pda} : p.validate = .ok q ↔ p.WellFormed ∧ p = q := by
  rw [validate, judge_eq_ok_iff, faults_eq_nil_iff]

end Pda

end Acceptors
