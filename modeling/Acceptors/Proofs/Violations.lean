import Acceptors.Proofs.Validation

/-! Lists of faults and the checks that they come from. A description is checked in many places, in
an order that can be said without the list: a list of faults ranks the violations if it is empty only
where there are none, and otherwise starts with the fault of a check before which none fails. Such
lists are put together from such lists, as long as the order of the parts is the order of the
checks. -/
namespace Acceptors.Validation

variable {ι α : Type} {earlier : ι → ι → Prop} {violation other : ι → ValidationError → Prop}
  {faults rest : List ValidationError} {fault : ValidationError}

/-- A fault of some check before which no check fails. -/
def IsFirst (earlier : ι → ι → Prop) (violation : ι → ValidationError → Prop)
    (fault : ValidationError) : Prop :=
  ∃ check, violation check fault ∧
    ∀ before another, earlier before check → ¬ violation before another

/-- If any two checks are ordered and each has one fault, there is only one first fault. -/
theorem IsFirst.unique (hConnected : ∀ c d, earlier c d ∨ c = d ∨ earlier d c)
    (hFunctional : ∀ c e e', violation c e → violation c e' → e = e') {another : ValidationError}
    (hFault : IsFirst earlier violation fault) (hAnother : IsFirst earlier violation another) :
    fault = another := by
  obtain ⟨c, hc, hFirst⟩ := hFault
  obtain ⟨d, hd, hFirst'⟩ := hAnother
  rcases hConnected c d with hBefore | rfl | hAfter
  · exact absurd hc (hFirst' c fault hBefore)
  · exact hFunctional c fault another hc hd
  · exact absurd hd (hFirst d another hAfter)

/-- A list of faults that starts with the first one, if there is any. -/
structure Ranks (earlier : ι → ι → Prop) (violation : ι → ValidationError → Prop)
    (faults : List ValidationError) : Prop where
  not_violated : faults = [] → ∀ check fault, ¬ violation check fault
  isFirst : ∀ fault, faults.head? = some fault → IsFirst earlier violation fault

/-- The first fault of the list is the only first fault of the checks. -/
theorem Ranks.head?_eq_some_iff (hRanks : Ranks earlier violation faults)
    (hConnected : ∀ c d, earlier c d ∨ c = d ∨ earlier d c)
    (hFunctional : ∀ c e e', violation c e → violation c e' → e = e') :
    faults.head? = some fault ↔ IsFirst earlier violation fault := by
  constructor
  · exact hRanks.isFirst fault
  · intro hFirst
    cases faults with
    | nil =>
        obtain ⟨check, hViolation, _⟩ := hFirst
        exact absurd hViolation (hRanks.not_violated rfl check fault)
    | cons head tail =>
        have hHead := hRanks.isFirst head rfl
        simp [IsFirst.unique hConnected hFunctional hHead hFirst]

theorem Ranks.congr (hRanks : Ranks earlier violation faults)
    (hSame : ∀ check fault, other check fault ↔ violation check fault) :
    Ranks earlier other faults := by
  have hEq : other = violation := by
    funext check fault
    exact propext (hSame check fault)
  rwa [hEq]

/-- Only the first fault of a list matters. -/
theorem Ranks.of_head?_eq (hRanks : Ranks earlier violation faults)
    (hHead : rest.head? = faults.head?) : Ranks earlier violation rest := by
  constructor
  · intro hNil
    rw [hNil, List.head?_nil, eq_comm, List.head?_eq_none_iff] at hHead
    exact hRanks.not_violated hHead
  · intro fault hFault
    exact hRanks.isFirst fault (hHead.symm.trans hFault)

theorem ranks_nil (hNone : ∀ check fault, ¬ violation check fault) : Ranks earlier violation [] := by
  constructor
  · intro _
    exact hNone
  · intro fault hFault
    cases hFault

/-- A single check. -/
theorem ranks_demand {requirement : Prop} [Decidable requirement] {check : ι}
    (hIrrefl : ¬ earlier check check)
    (hViolation : ∀ e, violation check e ↔ ¬ requirement ∧ e = fault) :
    Ranks earlier (fun c e => c = check ∧ violation c e) (demand requirement fault) := by
  constructor
  · rintro hNil c e ⟨rfl, hFails⟩
    exact ((hViolation e).mp hFails).1 (demand_eq_nil_iff.mp hNil)
  · intro e hHead
    rw [demand] at hHead
    split at hHead
    · cases hHead
    · next hFails =>
        cases hHead
        refine ⟨check, ⟨rfl, (hViolation fault).mpr ⟨hFails, rfl⟩⟩, ?_⟩
        rintro before another hBefore ⟨rfl, _⟩
        exact hIrrefl hBefore

/-- Checks that come later in the list are not earlier in the order. -/
theorem Ranks.append (hLeft : Ranks earlier violation faults) (hRight : Ranks earlier other rest)
    (hOrder : ∀ c e d e', violation c e → other d e' → ¬ earlier d c) :
    Ranks earlier (fun c e => violation c e ∨ other c e) (faults ++ rest) := by
  constructor
  · intro hNil c e
    rw [List.append_eq_nil_iff] at hNil
    exact not_or.mpr ⟨hLeft.not_violated hNil.1 c e, hRight.not_violated hNil.2 c e⟩
  · intro fault hHead
    cases faults with
    | nil =>
        have hNone := hLeft.not_violated rfl
        obtain ⟨check, hCheck, hFirst⟩ := hRight.isFirst fault hHead
        refine ⟨check, Or.inr hCheck, ?_⟩
        intro before another hBefore
        exact not_or.mpr ⟨hNone before another, hFirst before another hBefore⟩
    | cons head tail =>
        obtain ⟨check, hCheck, hFirst⟩ := hLeft.isFirst fault hHead
        refine ⟨check, Or.inl hCheck, ?_⟩
        intro before another hBefore
        refine not_or.mpr ⟨hFirst before another hBefore, ?_⟩
        intro hOther
        exact hOrder check fault before another hCheck hOther hBefore

/-- Checks that are made stage by stage. -/
theorem Ranks.append_stage {stage : ι → Nat} {n : Nat}
    (hStages : ∀ c d, stage c < stage d → ¬ earlier d c)
    (hLeft : Ranks earlier (fun c e => stage c < n ∧ violation c e) faults)
    (hRight : Ranks earlier (fun c e => stage c = n ∧ violation c e) rest) :
    Ranks earlier (fun c e => stage c < n + 1 ∧ violation c e) (faults ++ rest) := by
  have hBoth := hLeft.append hRight fun c _ d _ hc hd => hStages c d (hd.1 ▸ hc.1)
  apply hBoth.congr
  intro c e
  rw [← or_and_right, Nat.lt_succ_iff_lt_or_eq]

/-- Members of a list in order are related if one comes before the other. -/
theorem rel_of_getElem? {r : α → α → Prop} {members : List α} (hPairwise : members.Pairwise r)
    {i j : Nat} {a b : α} (hLess : i < j) (ha : members[i]? = some a) (hb : members[j]? = some b) :
    r a b := by
  obtain ⟨hi, rfl⟩ := List.getElem?_eq_some_iff.mp ha
  obtain ⟨hj, rfl⟩ := List.getElem?_eq_some_iff.mp hb
  exact List.pairwise_iff_getElem.mp hPairwise i j hi hj hLess

/-- The faults of the members of a list, member by member. -/
theorem ranks_flatMap {members : List α} {faultsOf : α → List ValidationError}
    {violationOf : Nat → α → ι → ValidationError → Prop}
    (hEach : ∀ i a, members[i]? = some a → Ranks earlier (violationOf i a) (faultsOf a))
    (hOrder : ∀ i j a b, i < j → members[i]? = some a → members[j]? = some b →
      ∀ c e d e', violationOf i a c e → violationOf j b d e' → ¬ earlier d c) :
    Ranks earlier (fun c e => ∃ i a, members[i]? = some a ∧ violationOf i a c e)
      (members.flatMap faultsOf) := by
  induction members generalizing violationOf with
  | nil => constructor <;> simp
  | cons a members ih =>
      have hRest : Ranks earlier
          (fun c e => ∃ i b, members[i]? = some b ∧ violationOf (i + 1) b c e)
          (members.flatMap faultsOf) :=
        ih (fun i b hb => hEach (i + 1) b hb) fun i j b c hLess hb hc =>
          hOrder (i + 1) (j + 1) b c (Nat.succ_lt_succ hLess) hb hc
      have hAll := (hEach 0 a rfl).append hRest
        (fun c e d e' hFirst ⟨i, b, hb, hLater⟩ =>
          hOrder 0 (i + 1) a b (Nat.succ_pos i) rfl hb c e d e' hFirst hLater)
      rw [List.flatMap_cons]
      apply hAll.congr
      intro c e
      constructor
      · rintro ⟨i, b, hb, hViolation⟩
        cases i with
        | zero =>
            cases hb
            exact Or.inl hViolation
        | succ i => exact Or.inr ⟨i, b, hb, hViolation⟩
      · rintro (hViolation | ⟨i, b, hb, hViolation⟩)
        · exact ⟨0, a, rfl, hViolation⟩
        · exact ⟨i + 1, b, hb, hViolation⟩

/-- The faults of members in an order that the checks follow. -/
theorem ranks_flatMap_of_pairwise {r : α → α → Prop} {members : List α}
    {faultsOf : α → List ValidationError} {violationOf : α → ι → ValidationError → Prop}
    (hPairwise : members.Pairwise r)
    (hEach : ∀ a ∈ members, Ranks earlier (violationOf a) (faultsOf a))
    (hOrder : ∀ a b, r a b → ∀ c e d e', violationOf a c e → violationOf b d e' → ¬ earlier d c) :
    Ranks earlier (fun c e => ∃ a ∈ members, violationOf a c e) (members.flatMap faultsOf) := by
  have hPlaces : Ranks earlier
      (fun c e => ∃ (i : Nat) (a : α), members[i]? = some a ∧ violationOf a c e)
      (members.flatMap faultsOf) := by
    apply ranks_flatMap
    · intro i a ha
      exact hEach a (List.mem_of_getElem? ha)
    · intro i j a b hLess ha hb
      exact hOrder a b (rel_of_getElem? hPairwise hLess ha hb)
  apply hPlaces.congr
  intro c e
  simp only [List.mem_iff_getElem?]
  rw [exists_comm]
  simp

/-- Checks that are some of the checks of a larger description. -/
theorem Ranks.map {κ : Type} {before : κ → κ → Prop} {embed : ι → κ}
    (hEmbed : ∀ c d, before (embed c) (embed d) → earlier c d)
    (hRanks : Ranks earlier violation faults) :
    Ranks before (fun c e => ∃ check, embed check = c ∧ violation check e) faults := by
  constructor
  · rintro hNil c e ⟨check, rfl, hViolation⟩
    exact hRanks.not_violated hNil check e hViolation
  · intro fault hHead
    obtain ⟨check, hCheck, hFirst⟩ := hRanks.isFirst fault hHead
    refine ⟨embed check, ⟨check, rfl, hCheck⟩, ?_⟩
    rintro c another hBefore ⟨other, rfl, hOther⟩
    exact hFirst other another (hEmbed other check hBefore) hOther

end Acceptors.Validation
