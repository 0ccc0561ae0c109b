import Acceptors.Proofs.Dfa.Run

/-! Merges of states. Every state is replaced by its image, and the states that are their own
images are left. -/
namespace Acceptors.Dfa

variable {d : Dfa} {q : String} {image : String → String}

/-- An automaton is determined by its parts, and its table by what is looked up in it. -/
theorem eq_of_parts {d e : Dfa} (hAlphabet : d.alphabet = e.alphabet)
    (hStates : ∀ q, q ∈ d.states ↔ q ∈ e.states) (hStart : d.start = e.start)
    (hAccept : ∀ q, q ∈ d.accept ↔ q ∈ e.accept) (hNext : ∀ q a, d.next? q a = e.next? q a) :
    d = e := by
  have hStates : d.states = e.states := SortedSet.ext hStates
  have hAccept : d.accept = e.accept := SortedSet.ext hAccept
  have hTable : d.table = e.table := SortedMap.ext_get? fun key => hNext key.1 key.2
  cases d
  cases e
  simp_all

def mergeBy (d : Dfa) (image : String → String) : Dfa :=
  { d with
    states := d.states.filter fun q => decide (image q = q)
    accept := d.accept.filter fun q => decide (image q = q)
    table := (d.table.filterKeys fun key => decide (image key.1 = key.1)).mapValues image }

theorem mem_mergeBy_states : q ∈ (d.mergeBy image).states ↔ q ∈ d.states ∧ image q = q := by
  change q ∈ d.states.filter (fun q => decide (image q = q)) ↔ _
  rw [SortedSet.mem_filter, decide_eq_true_eq]

theorem mem_mergeBy_accept : q ∈ (d.mergeBy image).accept ↔ q ∈ d.accept ∧ image q = q := by
  change q ∈ d.accept.filter (fun q => decide (image q = q)) ↔ _
  rw [SortedSet.mem_filter, decide_eq_true_eq]

/-- States that are dropped have no rows any more, and the others lead to images. -/
theorem mergeBy_next? (a : Char) :
    (d.mergeBy image).next? q a = if image q = q then (d.next? q a).map image else none := by
  change ((d.table.filterKeys fun key => decide (image key.1 = key.1)).mapValues image).get?
    (q, a) = _
  rw [SortedMap.get?_mapValues, SortedMap.get?_filterKeys]
  by_cases hKept : image q = q <;> simp [hKept, next?]

/-- A merge that moves no state changes nothing. -/
theorem mergeBy_eq_self (hImage : ∀ q, image q = q) : d.mergeBy image = d := by
  refine eq_of_parts rfl ?_ rfl ?_ ?_
  · intro q
    rw [mem_mergeBy_states, and_iff_left (hImage q)]
  · intro q
    rw [mem_mergeBy_accept, and_iff_left (hImage q)]
  · intro q a
    rw [mergeBy_next?, if_pos (hImage q), funext hImage]
    exact Option.map_id'

/-- Two merges are one, if a state that survives both is its own image in each. -/
theorem mergeBy_mergeBy {other : String → String}
    (hFixed : ∀ q, other (image q) = q ↔ image q = q ∧ other q = q) :
    (d.mergeBy image).mergeBy other = d.mergeBy fun q => other (image q) := by
  refine eq_of_parts rfl ?_ rfl ?_ ?_
  · intro q
    simp only [mem_mergeBy_states, hFixed, and_assoc]
  · intro q
    simp only [mem_mergeBy_accept, hFixed, and_assoc]
  · intro q a
    simp only [mergeBy_next?, hFixed]
    by_cases hImage : image q = q <;> by_cases hOther : other q = q <;>
      simp [hImage, hOther, Function.comp_def]

/-- The start state has to be kept, and all states have to be replaced by states that are kept. -/
theorem WellFormed.wellFormed_mergeBy (hd : d.WellFormed) (hStart : image d.start = d.start)
    (hImage : ∀ q ∈ d.states, image q ∈ d.states ∧ image (image q) = image q) :
    (d.mergeBy image).WellFormed where
  start_mem := mem_mergeBy_states.mpr ⟨hd.start_mem, hStart⟩
  accept_mem q hq := by
    have hAccept := mem_mergeBy_accept.mp hq
    exact mem_mergeBy_states.mpr ⟨hd.accept_mem q hAccept.1, hAccept.2⟩
  mem_table q a := by
    have hEntry := hd.mem_table q a
    rw [SortedMap.mem_iff] at hEntry ⊢
    change ((d.mergeBy image).next? q a).isSome = true ↔ q ∈ (d.mergeBy image).states ∧ _
    rw [mergeBy_next?, mem_mergeBy_states]
    by_cases hKept : image q = q
    · rw [if_pos hKept, Option.isSome_map, and_iff_left hKept]
      exact hEntry
    · simp [hKept]
  target_mem q a r hr := by
    change (d.mergeBy image).next? q a = some r at hr
    rw [mergeBy_next?] at hr
    by_cases hKept : image q = q
    · rw [if_pos hKept, Option.map_eq_some_iff] at hr
      obtain ⟨target, hTarget, rfl⟩ := hr
      exact mem_mergeBy_states.mpr (hImage target (hd.target_mem q a target hTarget))
    · rw [if_neg hKept] at hr
      cases hr

end Acceptors.Dfa
