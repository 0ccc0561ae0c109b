import Acceptors.Proofs.Dfa.Collapse
import Acceptors.Proofs.Nfa.Determinization

/-! Deterministic automata and where they come from. Descriptions are validated, and
determinization and minimization are not; the automata of all of them have one target for each
pair of state and symbol, and no others. -/
namespace Acceptors.Dfa

variable {d : Dfa}

/-- The automata that can be had: of an accepted description, given as a whole or part by part,
or of a determinization, each minimized any number of times. -/
inductive Obtained : Dfa → Prop where
  | described {parts d : Dfa} (hValid : parts.validate = .ok d) : Obtained d
  | built {edits : List Edit} {d : Dfa} (hBuild : (Draft.ofEdits edits).build = .ok d) :
      Obtained d
  | determinized {n : Nfa} (hn : n.Declared) : Obtained n.determinize
  | minimized {d : Dfa} (hd : Obtained d) : Obtained d.minimize

/-- Wherever an automaton comes from, it satisfies what validation asks for. -/
theorem Obtained.wellFormed (hd : d.Obtained) : d.WellFormed := by
  induction hd with
  | described hValid =>
      obtain ⟨hWellFormed, rfl⟩ := validate_eq_ok_iff.mp hValid
      exact hWellFormed
  | built hBuild => exact Draft.wellFormed_of_build hBuild
  | determinized hn => exact hn.wellFormed_determinize
  | minimized _ ih => exact ih.wellFormed_minimize

namespace WellFormed

variable (hd : d.WellFormed)
include hd

theorem size_table : d.table.size = d.states.size * d.alphabet.size :=
  SortedMap.size_eq_mul hd.mem_table

/-- No run of an automaton that can be had misses an entry. -/
theorem isSome_next? {q : String} {a : Char} (hq : q ∈ d.states) (ha : a ∈ d.alphabet) :
    (d.next? q a).isSome = true :=
  (hd.mem_table q a).mpr ⟨hq, ha⟩

end WellFormed

/-- However an automaton was obtained, it is well formed, and its table has as many entries as
there are pairs of states and symbols. No lookup misses: neither those of runs and of the search
for reachable states, at states that words lead to, nor those of the refinement of classes, at
the states that are left after trimming. The automata on the way through a minimization, after
trimming and after each merge of a class, are well formed too. -/
theorem obtained_total_and_closed (hd : d.Obtained) :
    d.WellFormed ∧ d.table.size = d.states.size * d.alphabet.size ∧
      (∀ word : Word, (∀ a ∈ word, a ∈ d.alphabet) →
        ∀ a ∈ d.alphabet, (d.next? (d.after d.start word) a).isSome = true) ∧
      (∀ q ∈ d.trim.states, ∀ a ∈ d.alphabet, (d.trim.next? q a).isSome = true) ∧
      d.minimize = d.trim.collapseAll d.trim.classes ∧
      ∀ count, (d.trim.collapseAll (d.trim.classes.take count)).WellFormed := by
  have hWell := hd.wellFormed
  have hTrim := hWell.wellFormed_trim
  refine ⟨hWell, hWell.size_table, ?_, ?_, hWell.minimize_eq_collapseAll,
    hTrim.wellFormed_collapseAll_take⟩
  · intro word hWord a ha
    exact hWell.isSome_next? (hWell.after_mem hWell.start_mem hWord) ha
  · intro q hq a ha
    exact hTrim.isSome_next? hq ha

/-- The first merge of the trimmed automaton turns `2` into the start state. The determinized
automaton has four states for two symbols, and none of them is lost in minimization. -/
theorem obtained_total_and_closed_parity :
    unfoldedParity.validate = .ok unfoldedParity ∧
      (unfoldedParity.trim.collapse ["0", "2"]).WellFormed ∧
      unfoldedParity.minimize.minimize.table.size = 2 ∧
      Nfa.commaNames.Declared ∧ Nfa.commaNames.determinize.minimize.table.size = 8 := by
  have hObtained : unfoldedParity.Obtained := .described validate_unfoldedParity
  have hDeclared : Nfa.commaNames.Declared := (Nfa.faults_eq_nil_iff.mp (by decide)).toDeclared
  have hDetermined : Nfa.commaNames.determinize.Obtained := .determinized hDeclared
  obtain ⟨_, _, _, _, _, hMerges⟩ := obtained_total_and_closed hObtained
  obtain ⟨_, hParity, _⟩ := obtained_total_and_closed hObtained.minimized.minimized
  obtain ⟨_, hCommas, _⟩ := obtained_total_and_closed hDetermined.minimized
  have hClasses : unfoldedParity.trim.classes = [["0", "2"], ["1"]] := by decide
  have hFirst := hMerges 1
  rw [hClasses] at hFirst
  exact ⟨validate_unfoldedParity, hFirst, hParity.trans (by decide), hDeclared,
    hCommas.trans (by decide)⟩

end Acceptors.Dfa
