import Acceptors.CommandLine.Outcome
import Acceptors.Proofs.CommandLine.Request
import Acceptors.Proofs.Dfa.Minimization
import Acceptors.Proofs.Nfa.Determinization
import Acceptors.Proofs.Regex.Faults

/-! What matching inputs prints. The engines use automata with the same answers, so that nothing
that is seen of a run depends on the engine: neither the lines before the first input without a
verdict, nor the report on this input. -/
namespace Acceptors.CommandLine

variable {automaton : FiniteAutomaton} {alphabet : Alphabet} {input : String}

def matchOutcome (alphabet expression : String) (inputs : List String) (engine : Engine) :
    Outcome :=
  outcome (Request.toArguments { alphabet, expression, engine, action := .judge inputs })

def writtenIn (alphabet : Alphabet) (input : String) : Bool :=
  input.toList.all fun c => decide (c ∈ alphabet)

theorem writtenIn_iff : writtenIn alphabet input = true ↔ ∀ c ∈ input.toList, c ∈ alphabet := by
  simp [writtenIn]

theorem matchOutcome_eq (alphabet expression : String) (inputs : List String) (engine : Engine) :
    matchOutcome alphabet expression inputs engine =
      Request.outcome { alphabet, expression, engine, action := .judge inputs } := by
  rw [matchOutcome, outcome, Request.ofArguments_toArguments]

/-- The automata of all engines have the same answers. -/
theorem Engine.run_automaton {n : Nfa} (hn : n.Declared) (engine : Engine) (word : Word) :
    (engine.automaton n).run word = n.run word := by
  cases engine with
  | nfa => rfl
  | dfa => exact hn.run_determinize_eq word
  | minimal =>
      exact (hn.wellFormed_determinize.run_minimize_eq word).trans (hn.run_determinize_eq word)

/-- Of an automaton, nothing but its answers is printed. -/
theorem judgeAll_congr {other : FiniteAutomaton}
    (hRun : ∀ word, automaton.run word = other.run word) (printed : String)
    (inputs : List String) : judgeAll automaton printed inputs = judgeAll other printed inputs := by
  induction inputs generalizing printed with
  | nil => rfl
  | cons input inputs ih =>
      rw [judgeAll, judgeAll, hRun]
      cases other.run input.toList with
      | error fault => rfl
      | ok accepted => exact ih _

/-- An input is given its verdict if it is written in the alphabet, and ends the run otherwise. -/
theorem judgeAll_verdicts {verdict : Word → Bool}
    (hRun : ∀ word, automaton.run word = alphabet.answer word (verdict word)) (printed : String)
    (inputs : List String) :
    (judgeAll automaton printed inputs).stdout =
        printed ++ String.join ((inputs.takeWhile (writtenIn alphabet)).map fun input =>
          verdictLine (verdict input.toList) input) ∧
      ((judgeAll automaton printed inputs).code = 0 ↔
        inputs.takeWhile (writtenIn alphabet) = inputs) := by
  induction inputs generalizing printed with
  | nil => simp [judgeAll]
  | cons input inputs ih =>
      rw [judgeAll, hRun]
      by_cases hInput : writtenIn alphabet input = true
      · rw [Alphabet.answer_of_forall_mem (writtenIn_iff.mp hInput),
          List.takeWhile_cons_of_pos hInput, List.map_cons, String.join_cons, List.cons_inj_right,
          ← String.append_assoc]
        exact ih _
      · have hForeign : ∃ c ∈ input.toList, c ∉ alphabet := by
          simpa [writtenIn_iff] using hInput
        obtain ⟨c, hFirst⟩ := Alphabet.exists_firstForeign_iff.mpr hForeign
        rw [Alphabet.answer_eq_symbolNotInAlphabet_iff.mpr hFirst,
          List.takeWhile_cons_of_neg hInput]
        simp

theorem Request.outcome_of_compiles {alphabet expression : String} {inputs : List String}
    {r : Regex} {n : Nfa} (hText : Regex.ofText (Alphabet.ofString alphabet) expression = .ok r)
    (hAutomaton : r.automaton = .ok n) (engine : Engine) :
    Request.outcome { alphabet, expression, engine, action := .judge inputs } =
      judgeAll (engine.automaton n) "" inputs := by
  simp only [Request.outcome, Request.compile, hText, hAutomaton]

/-- Neither whether an expression compiles nor what is printed depends on the engine. -/
theorem matchOutcome_congr (alphabet expression : String) (inputs : List String)
    (engine other : Engine) :
    matchOutcome alphabet expression inputs engine =
      matchOutcome alphabet expression inputs other := by
  rw [matchOutcome_eq, matchOutcome_eq]
  cases hText : Regex.ofText (Alphabet.ofString alphabet) expression with
  | error fault => simp only [Request.outcome, Request.compile, hText]
  | ok r =>
      cases hAutomaton : r.automaton with
      | error fault => simp only [Request.outcome, Request.compile, hText, hAutomaton]
      | ok n =>
          have hn := (Regex.wellFormed_of_automaton hAutomaton).toDeclared
          rw [Request.outcome_of_compiles hText hAutomaton,
            Request.outcome_of_compiles hText hAutomaton]
          apply judgeAll_congr
          intro word
          rw [engine.run_automaton hn, other.run_automaton hn]

open Classical in
/-- Whatever is asked, all engines print and report the same. When the expression compiles, the
inputs are judged by the language of the tree that it spells, line by line up to the first that
is not written in the alphabet, and the run succeeds if there is none. -/
theorem engines_agree (alphabet expression : String) (inputs : List String) :
    (∀ engine other, matchOutcome alphabet expression inputs engine =
      matchOutcome alphabet expression inputs other) ∧
    ∀ r n, Regex.ofText (Alphabet.ofString alphabet) expression = .ok r → r.automaton = .ok n →
      ∃ t, Regex.Spells (Alphabet.ofString alphabet) .union t expression.toList ∧
        ∀ engine,
          (matchOutcome alphabet expression inputs engine).stdout =
            String.join ((inputs.takeWhile (writtenIn (Alphabet.ofString alphabet))).map fun input =>
              (if input.toList ∈ t.language then "accept" else "reject") ++ "\t" ++ input ++ "\n") ∧
          ((matchOutcome alphabet expression inputs engine).code = 0 ↔
            inputs.takeWhile (writtenIn (Alphabet.ofString alphabet)) = inputs) := by
  refine ⟨matchOutcome_congr alphabet expression inputs, ?_⟩
  intro r n hText hAutomaton
  have hn := (Regex.wellFormed_of_automaton hAutomaton).toDeclared
  obtain ⟨t, hSpells, rfl⟩ := Regex.exists_spells_of_automaton hAutomaton
  obtain ⟨hAlphabet, hExpression⟩ := Regex.eq_of_ofText hText
  have hRun : ∀ engine : Engine, ∀ word,
      (engine.automaton (t.automaton r.alphabet)).run word =
        (Alphabet.ofString alphabet).answer word (decide (word ∈ t.language)) := by
    intro engine word
    rw [engine.run_automaton hn, Regex.Tree.run_automaton_eq_answer hSpells.tree_over, hAlphabet]
  rw [hAlphabet, hExpression] at hSpells
  refine ⟨t, hSpells, ?_⟩
  intro engine
  rw [matchOutcome_eq, Request.outcome_of_compiles hText hAutomaton]
  obtain ⟨hPrinted, hCode⟩ := judgeAll_verdicts (hRun engine) "" inputs
  simp only [verdictLine, decide_eq_true_eq, String.empty_append] at hPrinted
  exact ⟨hPrinted, hCode⟩

/-- On `abc` no path is left when the foreign symbol comes. It ends the run of every engine, and
the input after it is not judged. -/
theorem engines_agree_repetition :
    (∃ r n, Regex.ofText (Alphabet.ofString "ab") "b*" = .ok r ∧ r.automaton = .ok n) ∧
      ∀ engine,
        (matchOutcome "ab" "b*" ["bb", "ab", "abc", "b"] engine).stdout =
          "accept\tbb\nreject\tab\n" ∧
        (matchOutcome "ab" "b*" ["bb", "ab", "abc", "b"] engine).code ≠ 0 := by
  have hAlphabet : ∀ c ∈ Alphabet.ofString "ab", c ∉ Regex.reservedSymbols := by
    simp [Regex.reservedSymbols]
  have hSymbol : Regex.Spells (Alphabet.ofString "ab") .atom _ ['b'] := .symbol (by decide)
  have hStar : Regex.Spells (Alphabet.ofString "ab") .union _ "b*".toList :=
    .summand (.factor (.star (.once hSymbol)))
  have hText := Regex.ofText_eq_ok hAlphabet hStar.known
  have hCompiles : ∃ n, Regex.automaton ⟨_, "b*", hAlphabet, hStar.known⟩ = .ok n :=
    Regex.exists_automaton_iff.mpr ⟨_, Regex.Spells.tree_eq hStar⟩
  obtain ⟨n, hAutomaton⟩ := hCompiles
  obtain ⟨_, hJudged⟩ := engines_agree "ab" "b*" ["bb", "ab", "abc", "b"]
  obtain ⟨t, hSpells, hOutcome⟩ := hJudged _ n hText hAutomaton
  obtain rfl := hSpells.tree_unique hAlphabet hStar
  have hAccepted : "bb".toList ∈ (Regex.Tree.star (.atom (.symbol 'b'))).language :=
    Language.mem_kstar.mpr
      ⟨[['b'], ['b']], rfl, List.forall_mem_cons.mpr ⟨rfl, List.forall_mem_singleton.mpr rfl⟩⟩
  have hRejected : "ab".toList ∉ (Regex.Tree.star (.atom (.symbol 'b'))).language := by
    intro hWord
    obtain ⟨pieces, hPieces, hEach⟩ := Language.mem_kstar.mp hWord
    have hFirst : 'a' ∈ pieces.flatten := hPieces ▸ List.mem_cons_self
    obtain ⟨piece, hPiece, hIn⟩ := List.mem_flatten.mp hFirst
    obtain rfl : piece = ['b'] := hEach piece hPiece
    exact absurd hIn (by decide)
  have hPrefix : ["bb", "ab", "abc", "b"].takeWhile (writtenIn (Alphabet.ofString "ab")) =
      ["bb", "ab"] := by decide
  rw [hPrefix] at hOutcome
  refine ⟨⟨_, n, hText, hAutomaton⟩, ?_⟩
  intro engine
  obtain ⟨hPrinted, hCode⟩ := hOutcome engine
  rw [List.map_cons, List.map_cons, if_pos hAccepted, if_neg hRejected] at hPrinted
  exact ⟨hPrinted, fun hZero => absurd (hCode.mp hZero) (by decide)⟩

end Acceptors.CommandLine
