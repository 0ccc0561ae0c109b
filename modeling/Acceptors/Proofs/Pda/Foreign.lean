import Acceptors.Proofs.Pda.Search

/-! The answers of pushdown automata on words with foreign symbols. No branch of a search gets
past a symbol that the alphabet lacks: the branch that comes to it reports it, and a branch that
ends before it accepts nothing. So every answer that is not cut off is the one that an automaton
with some verdict gives for the word. -/
namespace Acceptors.Pda

variable {p : Pda} {c d : Configuration} {word : Word} {pending : List Configuration}
  {budget : Nat} {answer : Answer}

/-- What has been read of the word, all but what is unread, are symbols of the alphabet. -/
def HasReadKnown (p : Pda) (word : Word) (c : Configuration) : Prop :=
  ∃ before, word = before ++ c.unread ∧ ∀ a ∈ before, a ∈ p.alphabet

theorem hasReadKnown_initial : p.HasReadKnown word (p.initial word) :=
  ⟨[], rfl, List.forall_mem_nil _⟩

/-- A move reads the next symbol only if it is not foreign. -/
theorem HasReadKnown.step (hRead : p.HasReadKnown word c) (hForeign : p.foreign? c = none)
    (hStep : p.Step c d) : p.HasReadKnown word d := by
  obtain ⟨before, hSplit, hBefore⟩ := hRead
  cases hStep with
  | @reading q a top below rest move hMove =>
      have ha : a ∈ p.alphabet := by simpa [foreign?] using hForeign
      refine ⟨before ++ [a], ?_, ?_⟩
      · rw [hSplit, List.append_assoc]
        rfl
      · exact List.forall_mem_append.mpr ⟨hBefore, List.forall_mem_singleton.mpr ha⟩
  | silent hMove => exact ⟨before, hSplit, hBefore⟩

theorem HasReadKnown.firstForeign {a : Char} (hRead : p.HasReadKnown word c)
    (hForeign : p.foreign? c = some a) : p.alphabet.FirstForeign word a := by
  obtain ⟨before, hSplit, hBefore⟩ := hRead
  obtain ⟨q, stack, unread⟩ := c
  cases stack with
  | nil => cases hForeign
  | cons top below =>
      cases unread with
      | nil => cases hForeign
      | cons b rest =>
          by_cases hb : b ∈ p.alphabet
          · simp [foreign?, hb] at hForeign
          · obtain rfl : b = a := by simpa [foreign?, hb] using hForeign
            exact ⟨before, rest, hSplit, hBefore, hb⟩

/-- A configuration that accepts has read the whole word. -/
theorem HasReadKnown.forall_mem (hRead : p.HasReadKnown word c) (hAccepting : p.Accepting c) :
    ∀ a ∈ word, a ∈ p.alphabet := by
  obtain ⟨before, hSplit, hBefore⟩ := hRead
  rw [hAccepting.1, List.append_nil] at hSplit
  rwa [hSplit]

/-- The ways in which a search ends: nothing is left to explore, a configuration accepts, or one
comes to a foreign symbol. What the moves preserve holds of this configuration. -/
theorem search_outcomes {I : Configuration → Prop}
    (hStep : ∀ c d, I c → p.foreign? c = none → p.Step c d → I d) (hPending : ∀ c ∈ pending, I c)
    (hSearch : p.search word budget pending = some answer) :
    answer = p.alphabet.reject word ∨
      (∃ c, I c ∧ p.Accepting c ∧ answer = .ok true) ∨
      ∃ c a, I c ∧ p.foreign? c = some a ∧ answer = .error (.symbolNotInAlphabet a) := by
  fun_induction p.search word budget pending with
  | case1 => exact Or.inl (Option.some.inj hSearch).symm
  | case2 => cases hSearch
  | case3 budget c pending hAccepts =>
      have hc := (List.forall_mem_cons.mp hPending).1
      exact Or.inr (Or.inl ⟨c, hc, accepts_iff.mp hAccepts, (Option.some.inj hSearch).symm⟩)
  | case4 budget c pending hAccepts a hForeign =>
      have hc := (List.forall_mem_cons.mp hPending).1
      exact Or.inr (Or.inr ⟨c, a, hc, hForeign, (Option.some.inj hSearch).symm⟩)
  | case5 budget c pending hAccepts hForeign ih =>
      rw [List.forall_mem_cons] at hPending
      apply ih _ hSearch
      intro d hd
      rcases List.mem_append.mp hd with hChild | hOld
      · exact hStep c d hPending.1 hForeign (mem_children_iff.mp hChild)
      · exact hPending.2 d hOld

/-- An answer is found with some verdict in mind: it is this verdict for a word over the
alphabet, and the report of the first foreign symbol for any other. -/
theorem search_eq_answer (hPending : ∀ c ∈ pending, p.HasReadKnown word c)
    (hSearch : p.search word budget pending = some answer) :
    ∃ verdict, answer = p.alphabet.answer word verdict := by
  have hStep : ∀ c d, p.HasReadKnown word c → p.foreign? c = none → p.Step c d →
      p.HasReadKnown word d := fun c d hRead => hRead.step
  rcases search_outcomes hStep hPending hSearch with
    hReject | ⟨c, hRead, hAccepting, rfl⟩ | ⟨c, a, hRead, hForeign, rfl⟩
  · exact ⟨false, hReject⟩
  · exact ⟨true, (Alphabet.answer_of_forall_mem (hRead.forall_mem hAccepting) true).symm⟩
  · have hFirst := hRead.firstForeign hForeign
    exact ⟨false, (Alphabet.answer_eq_symbolNotInAlphabet_iff.mpr hFirst).symm⟩

/-- The same under every limit, but that a limit may cut the search off. -/
theorem runWith_eq_answer {limit : Option Nat}
    (hAnswer : p.runWith budget limit word = some answer) :
    (∃ verdict, answer = p.alphabet.answer word verdict) ∨
      ∃ bound, limit = some bound ∧ answer = .error (.stepLimitExceeded bound) := by
  have hPending : ∀ c ∈ [p.initial word], p.HasReadKnown word c :=
    List.forall_mem_singleton.mpr hasReadKnown_initial
  cases limit with
  | none => exact Or.inl (search_eq_answer hPending hAnswer)
  | some bound =>
      rw [runWith, runWithLimit, Option.some_inj] at hAnswer
      cases hFound : p.answerWithin bound word with
      | none =>
          rw [hFound] at hAnswer
          exact Or.inr ⟨bound, rfl, hAnswer.symm⟩
      | some found =>
          rw [hFound] at hAnswer
          exact Or.inl (search_eq_answer hPending (hFound.trans (congrArg some hAnswer)))

end Acceptors.Pda
