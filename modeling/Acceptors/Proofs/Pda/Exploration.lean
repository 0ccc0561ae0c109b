import Acceptors.Proofs.Pda.Foreign

/-! The configurations that a search explores, and limits on their number. They are recorded beside
the search, which they do not change. A search that uses up its budget has explored as many
configurations as it was allowed, and with a larger budget it goes on from there, so that an answer
once found stays the answer. -/
namespace Acceptors.Pda

variable {p : Pda} {word : Word} {pending : List Configuration} {budget more limit : Nat}
  {answer : Answer}

/-- The search, and the configurations that it explores on the way. A configuration is explored when
it is taken from those that are pending, and only then does it count against the budget. -/
def explore (p : Pda) (word : Word) :
    Nat → List Configuration → List Configuration × Option Answer
  | _, [] => ([], some (p.alphabet.reject word))
  | 0, _ :: _ => ([], none)
  | budget + 1, c :: pending =>
    if p.accepts c then ([c], some (.ok true))
    else
      match p.foreign? c with
      | some a => ([c], some (.error (.symbolNotInAlphabet a)))
      | none =>
        let rest := p.explore word budget (p.children c ++ pending)
        (c :: rest.1, rest.2)

def explored (p : Pda) (limit : Nat) (word : Word) : List Configuration :=
  (p.explore word limit [p.initial word]).1

/-- Without its record, the search is the search. -/
theorem explore_snd : (p.explore word budget pending).2 = p.search word budget pending := by
  fun_induction p.search word budget pending with
  | case1 => rw [explore]
  | case2 => rw [explore]
  | case3 budget c pending hAccepts => rw [explore, if_pos hAccepts]
  | case4 budget c pending hAccepts a hForeign => rw [explore, if_neg hAccepts, hForeign]
  | case5 budget c pending hAccepts hForeign ih =>
      rw [explore, if_neg hAccepts, hForeign]
      exact ih

/-- A search without an answer has used up its budget. -/
theorem length_explore_of_search_eq_none (hSearch : p.search word budget pending = none) :
    (p.explore word budget pending).1.length = budget := by
  rw [← explore_snd] at hSearch
  fun_induction p.explore word budget pending with
  | case1 => cases hSearch
  | case2 => rfl
  | case3 => cases hSearch
  | case4 => cases hSearch
  | case5 budget c pending hAccepts hForeign rest ih => exact congrArg Nat.succ (ih hSearch)

theorem length_explore_le : (p.explore word budget pending).1.length ≤ budget := by
  fun_induction p.explore word budget pending with
  | case1 budget => exact Nat.zero_le budget
  | case2 => exact Nat.le_refl 0
  | case3 budget => exact Nat.succ_le_succ (Nat.zero_le budget)
  | case4 budget => exact Nat.succ_le_succ (Nat.zero_le budget)
  | case5 budget c pending hAccepts hForeign rest ih => exact Nat.succ_le_succ ih

/-- A search that has found its answer explores nothing more with a larger budget. -/
theorem explore_mono (hSearch : p.search word budget pending = some answer) (hMore : budget ≤ more) :
    p.explore word more pending = p.explore word budget pending := by
  fun_induction p.search word budget pending generalizing more with
  | case1 => rw [explore, explore]
  | case2 => cases hSearch
  | case3 budget c pending hAccepts =>
      obtain ⟨more, rfl⟩ := Nat.exists_eq_add_of_lt hMore
      rw [explore, explore, if_pos hAccepts, if_pos hAccepts]
  | case4 budget c pending hAccepts a hForeign =>
      obtain ⟨more, rfl⟩ := Nat.exists_eq_add_of_lt hMore
      rw [explore, explore, if_neg hAccepts, if_neg hAccepts, hForeign]
  | case5 budget c pending hAccepts hForeign ih =>
      obtain ⟨more, rfl⟩ := Nat.exists_eq_add_of_lt hMore
      rw [explore, explore, if_neg hAccepts, if_neg hAccepts, hForeign]
      simp only [ih hSearch (by omega : budget ≤ budget + more)]

/-- What is found within a budget is found within a larger one. -/
theorem search_mono (hSearch : p.search word budget pending = some answer) (hMore : budget ≤ more) :
    p.search word more pending = some answer := by
  rw [← explore_snd, explore_mono hSearch hMore, explore_snd, hSearch]

/-- No search reports a limit by itself. -/
theorem search_ne_stepLimitExceeded (bound : Nat) :
    p.search word budget pending ≠ some (.error (.stepLimitExceeded bound)) := by
  intro hSearch
  rcases search_outcomes (I := fun _ => True) (fun _ _ _ _ _ => trivial) (fun _ _ => trivial)
    hSearch with hReject | ⟨c, _, _, hAccept⟩ | ⟨c, a, _, _, hForeign⟩
  · rw [Alphabet.reject] at hReject
    cases hFirst : p.alphabet.firstForeign? word <;> rw [hFirst] at hReject <;> cases hReject
  · cases hAccept
  · cases hForeign

/-! The turns of a search. -/

/-- A search of pending configurations takes this number of turns to come to others that are pending
then. A turn takes the first of them, at which the search does not end, and puts those that its moves
lead to in its place. -/
inductive Turns (p : Pda) : List Configuration → List Configuration → Nat → Prop where
  | zero (pending : List Configuration) : Turns p pending pending 0
  | succ {pending later : List Configuration} {c : Configuration} {turns : Nat}
      (prior : Turns p pending (c :: later) turns) (hRunning : p.accepts c = false)
      (hKnown : p.foreign? c = none) : Turns p pending (p.children c ++ later) (turns + 1)

/-- After some turns the search goes on with what is pending then and the rest of its budget. It has
explored one configuration in each turn. -/
theorem Turns.explore_eq {later : List Configuration} {turns : Nat}
    (run : p.Turns pending later turns) (word : Word) :
    ∃ visited, visited.length = turns ∧ ∀ budget, p.explore word (turns + budget) pending =
      (visited ++ (p.explore word budget later).1, (p.explore word budget later).2) := by
  induction run with
  | zero => exact ⟨[], rfl, fun budget => by simp⟩
  | @succ later c turns prior hRunning hKnown ih =>
      obtain ⟨visited, hLength, hExplore⟩ := ih
      refine ⟨visited ++ [c], by simp [hLength], ?_⟩
      intro budget
      have hTurn : p.explore word (budget + 1) (c :: later) =
          (c :: (p.explore word budget (p.children c ++ later)).1,
            (p.explore word budget (p.children c ++ later)).2) := by
        simp [explore, hRunning, hKnown]
      rw [show turns + 1 + budget = turns + (budget + 1) by omega, hExplore, hTurn]
      simp

/-- What a search explores, it comes to before its budget is used up. -/
theorem Turns.exists_turns {start : List Configuration} {c : Configuration} {turns : Nat}
    (run : p.Turns start pending turns) (hExplored : c ∈ (p.explore word budget pending).1) :
    ∃ more later, more < turns + budget ∧ p.Turns start (c :: later) more := by
  fun_induction p.search word budget pending generalizing turns with
  | case1 => simp [explore] at hExplored
  | case2 => simp [explore] at hExplored
  | case3 budget d pending hAccepts =>
      have hSame : c = d := by simpa [explore, hAccepts] using hExplored
      exact ⟨turns, pending, by omega, hSame ▸ run⟩
  | case4 budget d pending hAccepts a hForeign =>
      have hSame : c = d := by simpa [explore, hAccepts, hForeign] using hExplored
      exact ⟨turns, pending, by omega, hSame ▸ run⟩
  | case5 budget d pending hAccepts hForeign ih =>
      simp only [explore, hAccepts, hForeign, Bool.false_eq_true, if_false, List.mem_cons] at hExplored
      rcases hExplored with rfl | hLater
      · exact ⟨turns, pending, by omega, run⟩
      · obtain ⟨more, later, hMore, hTurns⟩ := ih (run.succ (by simpa using hAccepts) hForeign) hLater
        exact ⟨more, later, by omega, hTurns⟩

/-- The configurations that a run explores are those that are first among the pending ones after
fewer turns than the limit allows. -/
theorem mem_explored_iff {c : Configuration} : c ∈ p.explored limit word ↔
    ∃ turns later, turns < limit ∧ p.Turns [p.initial word] (c :: later) turns := by
  constructor
  · intro hExplored
    simpa using (Turns.zero [p.initial word]).exists_turns hExplored
  · intro hTurns
    obtain ⟨turns, later, hLimit, run⟩ := hTurns
    obtain ⟨visited, _, hExplore⟩ := run.explore_eq word
    have hFirst : c ∈ (p.explore word (limit - turns - 1 + 1) (c :: later)).1 := by
      rw [explore]
      split
      · simp
      · split <;> simp
    rw [explored, show limit = turns + (limit - turns - 1 + 1) by omega, hExplore]
    exact List.mem_append_right visited hFirst

/-! Limits. -/

/-- Without a limit, a run gives this answer, after however many configurations. A run that explores
forever gives none. -/
def EndsWith (p : Pda) (word : Word) (answer : Answer) : Prop :=
  ∃ budget, p.runWith budget none word = some answer

theorem runWithLimit_of_answerWithin (hAnswer : p.answerWithin limit word = some answer) :
    p.runWithLimit limit word = answer := by
  rw [runWithLimit, hAnswer]
  rfl

/-- A limit is exceeded exactly if no answer is found within it, and the report names the limit. -/
theorem runWithLimit_eq_stepLimitExceeded_iff {bound : Nat} :
    p.runWithLimit limit word = .error (.stepLimitExceeded bound) ↔
      p.answerWithin limit word = none ∧ bound = limit := by
  rw [runWithLimit]
  cases hAnswer : p.answerWithin limit word with
  | none => simp [eq_comm]
  | some answer =>
      have hNe : p.answerWithin limit word ≠ some (.error (.stepLimitExceeded bound)) :=
        search_ne_stepLimitExceeded bound
      rw [hAnswer, ne_eq, Option.some_inj] at hNe
      simpa using hNe

/-- The answer of a run without a limit is the answer under every limit that allows one. -/
theorem endsWith_iff_of_answerWithin (hAnswer : p.answerWithin limit word = some answer)
    {other : Answer} : p.EndsWith word other ↔ other = answer := by
  constructor
  · rintro ⟨budget, hOther⟩
    have hOther := search_mono hOther (Nat.le_max_right limit budget)
    have hAnswer := search_mono hAnswer (Nat.le_max_left limit budget)
    exact Option.some.inj (hOther.symm.trans hAnswer)
  · rintro rfl
    exact ⟨limit, hAnswer⟩

/-- A limit does no more than to cut a run off. An answer that is not the report of a limit stays
the answer under every larger limit, and it is the one answer that the run without a limit ends
with. The report of a limit names this limit, which is the number of configurations that were
explored, and then every smaller limit is exceeded too. Without a limit, none is reported. -/
theorem limit_only_cuts_off (p : Pda) (word : Word) (limit larger : Nat)
    (hLarger : limit ≤ larger) :
    ((∀ bound, p.runWithLimit limit word ≠ .error (.stepLimitExceeded bound)) →
      p.runWithLimit larger word = p.runWithLimit limit word ∧
        ∀ answer, p.EndsWith word answer ↔ answer = p.runWithLimit limit word) ∧
    (∀ bound, p.runWithLimit larger word = .error (.stepLimitExceeded bound) →
      bound = larger ∧ (p.explored larger word).length = larger ∧
        p.runWithLimit limit word = .error (.stepLimitExceeded limit)) ∧
    ∀ bound, ¬ p.EndsWith word (.error (.stepLimitExceeded bound)) := by
  refine ⟨?_, ?_, ?_⟩
  · intro hWithin
    cases hAnswer : p.answerWithin limit word with
    | none =>
        have hExceeded := runWithLimit_eq_stepLimitExceeded_iff.mpr ⟨hAnswer, rfl⟩
        exact absurd hExceeded (hWithin limit)
    | some answer =>
        rw [runWithLimit_of_answerWithin hAnswer,
          runWithLimit_of_answerWithin (search_mono hAnswer hLarger)]
        exact ⟨rfl, fun other => endsWith_iff_of_answerWithin hAnswer⟩
  · intro bound hExceeded
    obtain ⟨hNone, rfl⟩ := runWithLimit_eq_stepLimitExceeded_iff.mp hExceeded
    refine ⟨rfl, length_explore_of_search_eq_none hNone, ?_⟩
    rw [runWithLimit_eq_stepLimitExceeded_iff]
    refine ⟨?_, rfl⟩
    -- An answer within the smaller limit would be one within the larger limit.
    by_contra hSome
    obtain ⟨answer, hAnswer⟩ := Option.ne_none_iff_exists'.mp hSome
    cases hNone.symm.trans (search_mono hAnswer hLarger)
  · rintro bound ⟨budget, hSearch⟩
    exact search_ne_stepLimitExceeded bound hSearch

/-- The search for `abba` explores eleven configurations. A limit of eleven is enough, and a limit of
ten is not. -/
theorem limit_only_cuts_off_threshold :
    (∀ answer, mirrored.EndsWith ['a', 'b', 'b', 'a'] answer ↔ answer = .ok true) ∧
      mirrored.runWithLimit 11 ['a', 'b', 'b', 'a'] = .ok true ∧
      mirrored.runWithLimit 10 ['a', 'b', 'b', 'a'] = .error (.stepLimitExceeded 10) ∧
      mirrored.runWithLimit 3 ['a', 'b', 'b', 'a'] = .error (.stepLimitExceeded 3) := by
  have hEnough : mirrored.runWithLimit 11 ['a', 'b', 'b', 'a'] = .ok true := by decide
  have hExceeded : mirrored.runWithLimit 10 ['a', 'b', 'b', 'a'] =
      .error (.stepLimitExceeded 10) := by decide
  have hWithin : ∀ bound, mirrored.runWithLimit 11 ['a', 'b', 'b', 'a'] ≠
      .error (.stepLimitExceeded bound) := by
    intro bound hReport
    cases hEnough.symm.trans hReport
  obtain ⟨hStays, _⟩ := limit_only_cuts_off mirrored ['a', 'b', 'b', 'a'] 11 20 (by decide)
  obtain ⟨_, hSmaller, _⟩ := limit_only_cuts_off mirrored ['a', 'b', 'b', 'a'] 3 10 (by decide)
  obtain ⟨_, hEnds⟩ := hStays hWithin
  rw [hEnough] at hEnds
  exact ⟨hEnds, hEnough, hExceeded, (hSmaller 10 hExceeded).2.2⟩

end Acceptors.Pda
