import Acceptors.Dfa.Minimal
import Acceptors.Proofs.Dfa.Run
import Acceptors.Proofs.Discovery
import Acceptors.Proofs.Sorted.Lemmas

/-! The states that words lead to. Dropping all others changes no answer, since a run never
leaves the states that it can reach. -/
namespace Acceptors.Dfa

variable {d : Dfa} {q : String}

def Reached (d : Dfa) (q : String) : Prop :=
  ∃ word : Word, (∀ a ∈ word, a ∈ d.alphabet) ∧ d.after d.start word = q

def Accessible (d : Dfa) : Prop := ∀ q ∈ d.states, d.Reached q

/-- Chains of successors are runs over words. -/
theorem reflTransGen_iff_after {p : String} :
    Relation.ReflTransGen (fun q r => r ∈ d.alphabet.toList.map (d.next q)) p q ↔
      ∃ word : Word, (∀ a ∈ word, a ∈ d.alphabet) ∧ d.after p word = q := by
  constructor
  · intro hReach
    induction hReach with
    | refl => exact ⟨[], by simp, rfl⟩
    | tail _ hStep ih =>
        obtain ⟨word, hWord, rfl⟩ := ih
        obtain ⟨a, ha, rfl⟩ := List.mem_map.mp hStep
        refine ⟨word ++ [a], ?_, after_append word [a]⟩
        exact List.forall_mem_append.mpr ⟨hWord, List.forall_mem_singleton.mpr ha⟩
  · intro hWord
    obtain ⟨word, hWord, rfl⟩ := hWord
    induction word generalizing p with
    | nil => exact .refl
    | cons a word ih =>
        rw [List.forall_mem_cons] at hWord
        exact .head (List.mem_map.mpr ⟨a, hWord.1, rfl⟩) (ih hWord.2)

/-- The rows of reachable states are kept, and no others. -/
theorem trim_next? (a : Char) :
    d.trim.next? q a = if q ∈ d.reachable then d.next? q a else none := by
  change (d.table.filterKeys fun key => decide (key.1 ∈ d.reachable)).get? (q, a) = _
  rw [SortedMap.get?_filterKeys]
  simp only [decide_eq_true_eq]
  rfl

theorem trim_next (hq : q ∈ d.reachable) (a : Char) : d.trim.next q a = d.next q a := by
  rw [next, trim_next?, if_pos hq, next]

theorem mem_trim_accept : q ∈ d.trim.accept ↔ q ∈ d.accept ∧ q ∈ d.reachable := by
  change q ∈ d.accept.filter _ ↔ _
  rw [SortedSet.mem_filter, decide_eq_true_eq]

/-- A state that a word leads to is an accept state before and after trimming. -/
theorem mem_trim_accept_iff (hq : q ∈ d.reachable) : q ∈ d.trim.accept ↔ q ∈ d.accept := by
  rw [mem_trim_accept, and_iff_left hq]

namespace WellFormed

variable (hd : d.WellFormed)
include hd

/-- The discovery of the reachable states ends before its bound is used up. -/
theorem reachable_finishes :
    Discovery.Finishes (fun q => d.alphabet.toList.map (d.next q)) [] [d.start]
      (Discovery.discover (fun q => d.alphabet.toList.map (d.next q)) d.states.size d.start) := by
  have hNext : ∀ q, q ∈ d.states → ∀ r ∈ d.alphabet.toList.map (d.next q), r ∈ d.states := by
    intro q hq r hr
    obtain ⟨a, ha, rfl⟩ := List.mem_map.mp hr
    exact hd.next_mem hq ha
  apply Discovery.discover_finishes hNext _ hd.start_mem (Nat.le_refl _)
  intro l hNodup hInside
  exact SortedSet.length_le_size hNodup hInside

/-- The search finds the states that words lead to. -/
theorem mem_reachable_iff : q ∈ d.reachable ↔ d.Reached q := by
  rw [reachable, SortedSet.mem_ofList, hd.reachable_finishes.mem_iff_reachable]
  exact reflTransGen_iff_after

theorem start_mem_reachable : d.start ∈ d.reachable :=
  hd.mem_reachable_iff.mpr ⟨[], by simp, rfl⟩

theorem mem_states_of_mem_reachable (hq : q ∈ d.reachable) : q ∈ d.states := by
  obtain ⟨word, hWord, rfl⟩ := hd.mem_reachable_iff.mp hq
  exact hd.after_mem hd.start_mem hWord

/-- No transition leads out of the reachable states. -/
theorem next_mem_reachable {a : Char} (hq : q ∈ d.reachable) (ha : a ∈ d.alphabet) :
    d.next q a ∈ d.reachable := by
  have hClosed := hd.reachable_finishes.closed (by simp)
  rw [reachable, SortedSet.mem_ofList] at hq ⊢
  exact hClosed q hq _ (List.mem_map.mpr ⟨a, ha, rfl⟩)

/-- A run that starts at a reachable state does not notice what has been dropped. -/
theorem trim_after {word : Word} (hq : q ∈ d.reachable)
    (hWord : ∀ a ∈ word, a ∈ d.alphabet) : d.trim.after q word = d.after q word := by
  induction word generalizing q with
  | nil => rfl
  | cons a word ih =>
      rw [List.forall_mem_cons] at hWord
      rw [after_cons, after_cons, trim_next hq]
      exact ih (hd.next_mem_reachable hq hWord.1) hWord.2

/-- The rows that are kept lead to states that are kept. -/
theorem wellFormed_trim : d.trim.WellFormed where
  start_mem := hd.start_mem_reachable
  accept_mem q hq := (mem_trim_accept.mp hq).2
  mem_table q a := by
    have hEntry := hd.mem_table q a
    rw [SortedMap.mem_iff] at hEntry ⊢
    change (d.trim.next? q a).isSome = true ↔ q ∈ d.reachable ∧ a ∈ d.alphabet
    rw [trim_next?]
    by_cases hq : q ∈ d.reachable
    · rw [if_pos hq]
      apply hEntry.trans
      simp [hq, hd.mem_states_of_mem_reachable hq]
    · simp [hq]
  target_mem q a r hr := by
    change d.trim.next? q a = some r at hr
    rw [trim_next?] at hr
    by_cases hq : q ∈ d.reachable
    · rw [if_pos hq] at hr
      have ha := ((hd.mem_table q a).mp (SortedMap.mem_of_get?_eq_some hr)).2
      have hNext := hd.next_mem_reachable hq ha
      rwa [next, hr] at hNext
    · rw [if_neg hq] at hr
      cases hr

theorem after_mem_reachable {word : Word} (hq : q ∈ d.reachable)
    (hWord : ∀ a ∈ word, a ∈ d.alphabet) : d.after q word ∈ d.reachable := by
  rw [← hd.trim_after hq hWord]
  exact hd.wellFormed_trim.after_mem hq hWord

/-- Words that led to a state still do, so that all the states that are left can be reached. -/
theorem accessible_trim : d.trim.Accessible := by
  intro q hq
  obtain ⟨word, hWord, hAfter⟩ := hd.mem_reachable_iff.mp hq
  exact ⟨word, hWord, (hd.trim_after hd.start_mem_reachable hWord).trans hAfter⟩

/-- To drop unreachable states changes no answer. -/
theorem run_trim_eq (word : Word) : d.trim.run word = d.run word := by
  rw [run_eq_answer, run_eq_answer]
  apply Alphabet.answer_congr
  intro hWord
  have hReached : d.after d.start word ∈ d.reachable := hd.mem_reachable_iff.mpr ⟨word, hWord, rfl⟩
  have hAfter : d.trim.after d.trim.start word = d.after d.start word :=
    hd.trim_after hd.start_mem_reachable hWord
  rw [Bool.eq_iff_iff, decide_eq_true_eq, decide_eq_true_eq, hAfter]
  exact mem_trim_accept_iff hReached

end WellFormed

end Acceptors.Dfa
