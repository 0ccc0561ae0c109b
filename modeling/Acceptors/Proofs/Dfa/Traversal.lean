import Acceptors.Proofs.Dfa.Reachability
import Acceptors.Proofs.Validation

/-! The depth-first loop over a stack of pending states. A state is pushed again as long as it has
not been visited, so the stack may grow and hold a state many times. The loop ends nevertheless,
since no state is visited twice, and it visits exactly the reachable states. -/
namespace Acceptors.Dfa

variable {d : Dfa} {q r : String} {visited result : SortedSet String} {pending : List String}

/-- The successors of a state that have not been visited, as they lie on the stack: by descending
symbol, since the one that is pushed last lies on top. -/
def unvisited (d : Dfa) (visited : SortedSet String) (q : String) : List String :=
  ((d.alphabet.toList.map (d.next q)).filter fun r => decide (r ∉ visited)).reverse

theorem mem_unvisited :
    r ∈ d.unvisited visited q ↔ (∃ a ∈ d.alphabet, d.next q a = r) ∧ r ∉ visited := by
  simp [unvisited]

/-- The loop from the visited states and the stack to the states that have been visited in the end.
A state that has been visited since it was pushed is dropped. A visit needs a table entry for each
symbol, and cannot go on without. -/
inductive Traverses (d : Dfa) : SortedSet String → List String → SortedSet String → Prop where
  | nil (visited : SortedSet String) : Traverses d visited [] visited
  | skip {visited result : SortedSet String} {pending : List String} {q : String}
      (old : q ∈ visited) (rest : Traverses d visited pending result) :
      Traverses d visited (q :: pending) result
  | visit {visited result : SortedSet String} {pending : List String} {q : String}
      (new : q ∉ visited) (total : ∀ a ∈ d.alphabet, (q, a) ∈ d.table)
      (rest : Traverses d (visited.insert q) (d.unvisited (visited.insert q) q ++ pending) result) :
      Traverses d visited (q :: pending) result

namespace Traverses

/-- What holds of the states at hand and passes on to successors holds of all visited states. -/
theorem invariant {P : String → Prop} (run : d.Traverses visited pending result)
    (hStep : ∀ q, P q → ∀ a ∈ d.alphabet, P (d.next q a)) (hVisited : ∀ q ∈ visited, P q)
    (hPending : ∀ q ∈ pending, P q) : ∀ q ∈ result, P q := by
  induction run with
  | nil visited => exact hVisited
  | skip _ _ ih => exact ih hVisited (List.forall_mem_cons.mp hPending).2
  | visit _ _ _ ih =>
      rw [List.forall_mem_cons] at hPending
      apply ih
      · intro r hr
        rcases SortedSet.mem_insert.mp hr with rfl | hr
        · exact hPending.1
        · exact hVisited r hr
      · refine List.forall_mem_append.mpr ⟨fun r hr => ?_, hPending.2⟩
        obtain ⟨⟨a, ha, rfl⟩, _⟩ := mem_unvisited.mp hr
        exact hStep _ hPending.1 a ha

/-- Nothing that is visited or pending is lost. -/
theorem mem_result (run : d.Traverses visited pending result)
    (hq : q ∈ visited ∨ q ∈ pending) : q ∈ result := by
  induction run with
  | nil => simpa using hq
  | skip old _ ih =>
      apply ih
      rcases hq with hq | hq
      · exact Or.inl hq
      · rcases List.mem_cons.mp hq with rfl | hq
        · exact Or.inl old
        · exact Or.inr hq
  | visit _ _ _ ih =>
      apply ih
      rw [SortedSet.mem_insert, List.mem_append]
      rcases hq with hq | hq
      · exact Or.inl (Or.inr hq)
      · rcases List.mem_cons.mp hq with rfl | hq
        · exact Or.inl (Or.inl rfl)
        · exact Or.inr (Or.inr hq)

/-- All successors of the visited states are visited in the end, if at the beginning they are
visited or pending. -/
theorem closed (run : d.Traverses visited pending result)
    (hVisited : ∀ q ∈ visited, ∀ a ∈ d.alphabet, d.next q a ∈ visited ∨ d.next q a ∈ pending) :
    ∀ q ∈ result, ∀ a ∈ d.alphabet, d.next q a ∈ result := by
  induction run with
  | nil => simpa using hVisited
  | skip old _ ih =>
      apply ih
      intro q hq a ha
      rcases hVisited q hq a ha with hNext | hNext
      · exact Or.inl hNext
      · rcases List.mem_cons.mp hNext with hSame | hNext
        · exact Or.inl (hSame ▸ old)
        · exact Or.inr hNext
  | @visit visited result pending q _ _ _ ih =>
      apply ih
      intro p hp a ha
      by_cases hNext : d.next p a ∈ visited.insert q
      · exact Or.inl hNext
      · rw [List.mem_append]
        right
        -- The successors of `q` have just been pushed, all others were pending before.
        rcases SortedSet.mem_insert.mp hp with rfl | hp
        · exact Or.inl (mem_unvisited.mpr ⟨⟨a, ha, rfl⟩, hNext⟩)
        · rw [SortedSet.mem_insert, not_or] at hNext
          rcases hVisited p hp a ha with hOld | hOld
          · exact absurd hOld hNext.2
          · exact Or.inr ((List.mem_cons.mp hOld).resolve_left hNext.1)

/-- The loop from the start state visits exactly the states that words lead to. -/
theorem mem_iff_reached (run : d.Traverses ∅ [d.start] result) : q ∈ result ↔ d.Reached q := by
  rw [Reached, ← reflTransGen_iff_after]
  constructor
  · refine run.invariant (fun p hp a ha => ?_) (by simp) ?_ q
    · exact hp.tail (List.mem_map.mpr ⟨a, ha, rfl⟩)
    · exact List.forall_mem_singleton.mpr .refl
  · intro hReach
    induction hReach with
    | refl => exact run.mem_result (Or.inr List.mem_cons_self)
    | tail _ hStep ih =>
        obtain ⟨a, ha, rfl⟩ := List.mem_map.mp hStep
        exact run.closed (by simp) _ ih a ha

end Traverses

namespace WellFormed

variable (hd : d.WellFormed)
include hd

/-- The loop ends: a turn either visits a state, and there are no more visits than states, or it
drops the top of the stack. -/
theorem exists_traverses (visited : SortedSet String) (pending : List String)
    (hVisited : ∀ q ∈ visited, q ∈ d.states) (hPending : ∀ q ∈ pending, q ∈ d.states) :
    ∃ result, d.Traverses visited pending result := by
  match pending with
  | [] => exact ⟨visited, .nil visited⟩
  | q :: pending =>
      rw [List.forall_mem_cons] at hPending
      by_cases hq : q ∈ visited
      · obtain ⟨result, rest⟩ := exists_traverses visited pending hVisited hPending.2
        exact ⟨result, .skip hq rest⟩
      · have hInserted : ∀ r ∈ visited.insert q, r ∈ d.states := by
          intro r hr
          rcases SortedSet.mem_insert.mp hr with rfl | hr
          · exact hPending.1
          · exact hVisited r hr
        have hPushed : ∀ r ∈ d.unvisited (visited.insert q) q ++ pending, r ∈ d.states := by
          refine List.forall_mem_append.mpr ⟨fun r hr => ?_, hPending.2⟩
          obtain ⟨⟨a, ha, rfl⟩, _⟩ := mem_unvisited.mp hr
          exact hd.next_mem hPending.1 ha
        have hGrowth : visited.size < d.states.size := by
          rw [Nat.lt_iff_add_one_le, ← SortedSet.size_insert hq]
          exact SortedSet.size_le_of_subset hInserted
        obtain ⟨result, rest⟩ := exists_traverses _ _ hInserted hPushed
        exact ⟨result, .visit hq (fun a ha => (hd.mem_table q a).mpr ⟨hPending.1, ha⟩) rest⟩
termination_by (d.states.size - visited.size, pending.length)
decreasing_by
  · exact Prod.Lex.right _ (Nat.lt_succ_self _)
  · apply Prod.Lex.left
    rw [SortedSet.size_insert hq]
    omega

/-- The loop ends with the reachable states, and with nothing else. -/
theorem traverses_iff : d.Traverses ∅ [d.start] result ↔ result = d.reachable := by
  have hUnique : ∀ result, d.Traverses ∅ [d.start] result → result = d.reachable := by
    intro result run
    ext q
    rw [run.mem_iff_reached, hd.mem_reachable_iff]
  constructor
  · exact hUnique result
  · rintro rfl
    obtain ⟨result, run⟩ := hd.exists_traverses ∅ [d.start] (by simp)
      (List.forall_mem_singleton.mpr hd.start_mem)
    rwa [← hUnique result run]

end WellFormed

/-- The depth-first loop ends, never without a table entry that it needs, and in whatever way it
ends, the visited states are the reachable part of the automaton. This part consists of exactly the
states that a word over the alphabet leads to from the start state. -/
theorem traversal_visits_reached (d : Dfa) (hValid : d.validate = .ok d) :
    (∃ result, d.Traverses ∅ [d.start] result) ∧
      (∀ result, d.Traverses ∅ [d.start] result → result = d.reachable) ∧
      ∀ q, q ∈ d.reachable ↔ d.Reached q := by
  have hd := (validate_eq_ok_iff.mp hValid).1
  refine ⟨⟨d.reachable, hd.traverses_iff.mpr rfl⟩, ?_, fun q => hd.mem_reachable_iff⟩
  intro result run
  exact hd.traverses_iff.mp run

/-- Both symbols lead from `p` to `q`, which then lies on the stack twice. No word leads to `u`. -/
def doublyPushed : Dfa where
  alphabet := Alphabet.ofString "ab"
  states := SortedSet.ofList ["p", "q", "s", "u"]
  start := "p"
  accept := SortedSet.ofList ["q"]
  table := SortedMap.ofList [(("p", 'a'), "q"), (("p", 'b'), "q"), (("q", 'a'), "p"),
    (("q", 'b'), "s"), (("s", 'a'), "s"), (("s", 'b'), "q"), (("u", 'a'), "p"), (("u", 'b'), "u")]

theorem traversal_visits_reached_doublyPushed :
    doublyPushed.validate = .ok doublyPushed ∧
      doublyPushed.Traverses ∅ ["p"] (SortedSet.ofList ["p", "q", "s"]) ∧
      ¬ doublyPushed.Reached "u" := by
  have hValid : doublyPushed.validate = .ok doublyPushed :=
    validate_eq_ok_iff.mpr ⟨faults_eq_nil_iff.mp (by decide), rfl⟩
  have hReachable : doublyPushed.reachable = SortedSet.ofList ["p", "q", "s"] := by decide
  obtain ⟨⟨result, run⟩, hUnique, hReached⟩ := traversal_visits_reached doublyPushed hValid
  refine ⟨hValid, ?_, ?_⟩
  · rwa [← hReachable, ← hUnique result run]
  · rw [← hReached "u"]
    decide

end Acceptors.Dfa
